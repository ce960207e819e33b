import NodusDb.Lib.Extremes
import NodusDb.Sql.IndexOnly
import NodusDb.Sql.IndexScan

/-!
# Least and greatest values from an index

`min` and `max` of an indexed column read one committed row at the end of the index, and the
session's own rows.

* `index_end_minmax`: when the result is that of all rows; it is for a column of plain values whose
  rows all have encoded entries, if the session has not written the row at the end.
-/

namespace NodusDb.Sql

open List

/-! ## The aggregates -/

/-- The lengths of intervals. -/
class Intervals where
  /-- The length of an interval that is written as intervals are shown, and is no date. -/
  span : Text → Option Int

section Aggregates

variable [Primitives] [Intervals]

def spanOf : Value → Option Int
  | .text text => Intervals.span text
  | _ => none

/-- Whether the first value is below the second, or above it. -/
def beats (least : Bool) (ordering : Ordering) : Bool := ordering = if least then .lt else .gt

/-- The least or greatest value by `compare`. -/
def bestValue (least : Bool) (values : List Value) : Option Value :=
  best (fun v b => beats least (compare v b)) values

/-- The shortest or longest interval. Of equal ones, the last is taken. -/
def bestInterval (least : Bool) (values : List (Value × Int)) : Option Value :=
  (best (fun v b => Ord.compare v.2 b.2 = .eq ∨ beats least (Ord.compare v.2 b.2)) values).map (·.1)

/-- The values with the lengths of the intervals, if all are intervals. -/
def intervalValues (values : List Value) : Option (List (Value × Int)) :=
  if values = [] then none else values.mapM fun v => (spanOf v).map (v, ·)

/-- `min` and `max`: NULL values are left out. -/
def aggregateMinMax (least : Bool) (values : List Value) : Value :=
  let nonNull := values.filter fun v => ¬ v.isNull
  (match intervalValues nonNull with
    | some intervals => bestInterval least intervals
    | none => bestValue least nonNull).getD .null

end Aggregates

section Ends

variable [Zones] [Primitives] [TypeNames] {idx : TableIndex}

/-- The components of an entry and the key of its row. -/
def entryTail (indexId key : Text) : Option (Text × Text) :=
  (stripPrefix (indexBase indexId) key).bind (splitOnce 45)

/-- The first of the components is decoded to a value other than NULL. -/
def decodesToValue (components dataType : Text) : Bool :=
  (decodeKeyComponent (components.takeWhile (· ≠ 33)) dataType true).any fun v => ¬ v.isNull

/-- The committed row of the first entry, or of the last one that is not NULL. -/
def IndexedTable.indexEndRows (table : IndexedTable idx) (dataType : Text) (first : Bool) :
    List (Text × Row) :=
  match indexPrefixRegion idx.indexId [] none with
  | none => []
  | some (start, stop) =>
    let tails := (table.between start stop).filterMap (entryTail idx.indexId)
    let chosen :=
      if first then tails.head?
      else (tails.filter fun tail => decodesToValue tail.1 dataType).getLast?
    match chosen with
    | none => []
    | some (_, pk) => ((table.rows.get? pk).map (pk, ·)).toList

def columnValues (rows : OrdMap Text Row) (position : Nat) : List Value :=
  rows.values.map (cell · position)

/-- `min` or `max` of the first key column, from the end of the index and the session's rows. -/
def IndexedTable.minMaxFromIndex [Intervals] (table : IndexedTable idx) (overlay : RowOverlay)
    (dataType : Text) (least : Bool) : Value :=
  aggregateMinMax least (columnValues
    (mergeOverlayBy (table.indexEndRows dataType least) overlay fun _ => true) idx.leading)

/-- `min` or `max` of the first key column of all rows that the session sees. -/
def IndexedTable.minMaxOfRows [Intervals] (table : IndexedTable idx) (overlay : RowOverlay)
    (least : Bool) : Value :=
  aggregateMinMax least (columnValues (scanRowsKeyed table.rows overlay) idx.leading)

end Ends

/-! ## What the aggregates compute -/

/-- From below for the least, and from above for the greatest. -/
def directed (least : Bool) (cmp : Value → Value → Ordering) (a b : Value) : Ordering :=
  if least then cmp a b else cmp b a

theorem directed_comparison {cmp : Value → Value → Ordering} {P : Value → Prop}
    (h : Comparison cmp P) (least : Bool) : Comparison (directed least cmp) P := by
  cases least with
  | true => exact h
  | false => exact h.flip

def valuesOf (values : List Value) : List Value := values.filter fun v => ¬ v.isNull

theorem mem_valuesOf :
    v ∈ valuesOf values ↔ v ∈ values ∧ v ≠ .null := by
  simp [valuesOf, mem_filter, ← Value.isNull_iff]

section Spans

variable [Intervals]

/-- Intervals are compared by their lengths. -/
def spanCmp (a b : Value) : Ordering := Ord.compare ((spanOf a).getD 0) ((spanOf b).getD 0)

theorem spanCmp_comparison (P : Value → Prop) : Comparison spanCmp P :=
  .of_key (fun v => (spanOf v).getD 0) (fun _ _ _ _ => compare_lt_iff_lt)
    (fun _ _ _ _ => compare_gt_iff_gt)

theorem mapM_span (values : List Value) :
    values.mapM (fun v => (spanOf v).map (v, ·)) =
      if ∀ v ∈ values, (spanOf v).isSome = true then
        some (values.map fun v => (v, (spanOf v).getD 0))
      else none := by
  induction values with
  | nil => rfl
  | cons v values ih =>
    rw [mapM_cons, ih]
    cases hspan : spanOf v with
    | none => simp [hspan]
    | some n =>
      by_cases hrest : ∀ w ∈ values, (spanOf w).isSome = true
      · rw [if_pos hrest, if_pos (forall_mem_cons.mpr ⟨by rw [hspan]; rfl, hrest⟩)]
        simp [hspan]
      · rw [if_neg hrest, if_neg fun h => hrest (forall_mem_cons.mp h).2]
        rfl

/-- There are values other than NULL, and they are intervals. -/
def allIntervals (values : List Value) : Bool := (intervalValues (valuesOf values)).isSome

theorem allIntervals_iff :
    allIntervals values = true ↔
      valuesOf values ≠ [] ∧ ∀ v ∈ valuesOf values, (spanOf v).isSome = true := by
  unfold allIntervals intervalValues
  rw [mapM_span]
  by_cases hempty : valuesOf values = []
  · rw [if_pos hempty]
    exact iff_of_false (by decide) fun h => h.1 hempty
  rw [if_neg hempty]
  split
  next hall => exact iff_of_true rfl ⟨hempty, hall⟩
  next hall => exact iff_of_false (by decide) fun h => hall h.2

end Spans

section Spec

variable [Primitives] [Intervals]

/-- The order of the aggregates: of intervals, or of values. -/
def aggregateCmp (intervals : Bool) : Value → Value → Ordering :=
  if intervals then spanCmp else compare

/-- A value is taken instead of the best one so far. Of equal intervals, the last is taken. -/
def takes (least intervals : Bool) (v b : Value) : Bool :=
  (intervals ∧ aggregateCmp intervals v b = .eq) ∨ beats least (aggregateCmp intervals v b)

theorem aggregateCmp_comparison (intervals : Bool) (t : ValueType) :
    Comparison (aggregateCmp intervals) (HasType t) := by
  cases intervals with
  | true => exact spanCmp_comparison _
  | false => exact compare_comparison t

theorem takesBest (least intervals : Bool) (t : ValueType) :
    TakesBest (directed least (aggregateCmp intervals)) (takes least intervals) (HasType t) := by
  have hcmp := aggregateCmp_comparison intervals t
  constructor
  · intro a b ha hb htaken
    rw [takes, decide_eq_true_eq] at htaken
    have hswap := hcmp.swap a b ha hb
    unfold directed beats at *
    revert htaken hswap
    cases least <;> cases aggregateCmp intervals a b <;> cases aggregateCmp intervals b a <;> simp
  · intro a b ha hb hleft
    rw [takes, decide_eq_false_iff_not] at hleft
    have hswap := hcmp.swap a b ha hb
    unfold directed beats at *
    revert hleft hswap
    cases least <;> cases aggregateCmp intervals a b <;> cases aggregateCmp intervals b a <;> simp

theorem aggregateMinMax_eq (least : Bool) (values : List Value) :
    aggregateMinMax least values =
      (best (takes least (allIntervals values)) (valuesOf values)).getD .null := by
  show (match intervalValues (valuesOf values) with
    | some intervals => bestInterval least intervals
    | none => bestValue least (valuesOf values)).getD .null = _
  cases hintervals : intervalValues (valuesOf values) with
  | some intervals =>
    have hall : allIntervals values = true := by rw [allIntervals, hintervals]; rfl
    have hlengths : intervals = (valuesOf values).map fun v => (v, (spanOf v).getD 0) := by
      unfold intervalValues at hintervals
      split at hintervals
      · cases hintervals
      rw [mapM_span] at hintervals
      split at hintervals
      · exact (Option.some.inj hintervals).symm
      · cases hintervals
    show (bestInterval least intervals).getD .null = _
    have htakes : (fun a b => decide (spanCmp a b = .eq ∨ beats least (spanCmp a b))) =
        takes least true := by
      funext a b
      simp [takes, aggregateCmp]
    rw [bestInterval, hlengths, best_map, Option.map_map, hall, ← htakes]
    have hvalue : (fun x : Value × Int => x.1) ∘ (fun v => (v, (spanOf v).getD 0)) = id := rfl
    rw [hvalue, Option.map_id]
    rfl
  | none =>
    have hall : allIntervals values = false := by rw [allIntervals, hintervals]; rfl
    have htakes : (fun v b => beats least (compare v b)) = takes least false := by
      funext v b
      simp [takes, aggregateCmp]
    rw [hall, ← htakes]
    rfl

/-! ## Rows and their column -/

/-- No row of these has a smaller value, or a greater one. -/
def IsExtreme (cmp : Value → Value → Ordering) (least : Bool) (rows : Text → Row → Prop)
    (position : Nat) (v : Value) : Prop :=
  ∀ pk row, rows pk row → cell row position ≠ .null →
    directed least cmp v (cell row position) ≠ .gt

/-- The other rows with an equal value have smaller keys. -/
def IsLast (cmp : Value → Value → Ordering) (rows : Text → Row → Prop) (position : Nat)
    (pk : Text) (v : Value) : Prop :=
  ∀ pk' row, rows pk' row → cell row position ≠ .null → cmp (cell row position) v = .eq → pk' ≤ pk

/-- The values other than NULL are intervals, and there are some. -/
def OnlyIntervals (rows : Text → Row → Prop) (position : Nat) : Prop :=
  (∃ pk row, rows pk row ∧ cell row position ≠ .null) ∧
    ∀ pk row, rows pk row → cell row position ≠ .null → (spanOf (cell row position)).isSome = true

section Maps

variable {rows : OrdMap Text Row} {position : Nat}

omit [Primitives] [Intervals] in
theorem mem_columnValues :
    v ∈ valuesOf (columnValues rows position) ↔
      v ≠ .null ∧ ∃ pk row, rows.get? pk = some row ∧ cell row position = v := by
  rw [mem_valuesOf, columnValues, mem_map, and_comm]
  refine and_congr_right fun _ => ?_
  constructor
  · rintro ⟨row, hrow, rfl⟩
    obtain ⟨pk, hpk⟩ := OrdMap.mem_values.mp hrow
    exact ⟨pk, row, hpk, rfl⟩
  · rintro ⟨pk, row, hpk, rfl⟩
    exact ⟨row, OrdMap.mem_values.mpr ⟨pk, hpk⟩, rfl⟩

omit [Primitives] in
theorem allIntervals_columnValues :
    allIntervals (columnValues rows position) = true ↔
      OnlyIntervals (fun pk row => rows.get? pk = some row) position := by
  rw [allIntervals_iff]
  refine and_congr ?_ ?_
  · constructor
    · intro hne
      obtain ⟨v, hv⟩ := exists_mem_of_ne_nil _ hne
      obtain ⟨hnull, pk, row, hrow, rfl⟩ := mem_columnValues.mp hv
      exact ⟨pk, row, hrow, hnull⟩
    · rintro ⟨pk, row, hrow, hnull⟩
      exact ne_nil_of_mem (mem_columnValues.mpr ⟨hnull, pk, row, hrow, rfl⟩)
  · constructor
    · intro hall pk row hrow hnull
      exact hall _ (mem_columnValues.mpr ⟨hnull, pk, row, hrow, rfl⟩)
    · intro hall v hv
      obtain ⟨hnull, pk, row, hrow, rfl⟩ := mem_columnValues.mp hv
      exact hall pk row hrow hnull

theorem aggregate_columnValues (least : Bool) {t : ValueType}
    (htyped : ∀ pk row, rows.get? pk = some row → HasType t (cell row position)) :
    ((∀ pk row, rows.get? pk = some row → cell row position = .null) ∧
        aggregateMinMax least (columnValues rows position) = .null) ∨
      ∃ pk row, rows.get? pk = some row ∧ cell row position ≠ .null ∧
        aggregateMinMax least (columnValues rows position) = cell row position ∧
        IsExtreme (aggregateCmp (allIntervals (columnValues rows position))) least
          (fun pk row => rows.get? pk = some row) position (cell row position) ∧
        (allIntervals (columnValues rows position) = true →
          IsLast spanCmp (fun pk row => rows.get? pk = some row) position pk
            (cell row position)) := by
  set intervals := allIntervals (columnValues rows position) with hintervals
  -- The rows with a value, from which the best is kept.
  set entries := rows.entries.filter fun e => ¬ (cell e.2 position).isNull with hentries
  have hvalues : valuesOf (columnValues rows position) =
      entries.map fun e => cell e.2 position := by
    rw [valuesOf, columnValues, OrdMap.values, map_map, filter_map]
    rfl
  have hmem : ∀ e, e ∈ entries ↔ rows.get? e.1 = some e.2 ∧ cell e.2 position ≠ .null := by
    intro e
    rw [hentries, mem_filter, ← OrdMap.mem_entries, ne_eq, ← Value.isNull_iff, decide_eq_true_eq]
  rw [aggregateMinMax_eq, hvalues, best_map, ← hintervals]
  by_cases hempty : entries = []
  · refine .inl ⟨fun pk row hrow => ?_, by rw [hempty]; rfl⟩
    by_contra hnull
    have hin := (hmem (pk, row)).mpr ⟨hrow, hnull⟩
    rw [hempty] at hin
    cases hin
  have hbest := takesBest least intervals t
  have htakes : TakesBest
      (fun a b : Text × Row => directed least (aggregateCmp intervals) (cell a.2 position)
        (cell b.2 position))
      (fun a b => takes least intervals (cell a.2 position) (cell b.2 position))
      (fun e => HasType t (cell e.2 position)) :=
    ⟨fun a b => hbest.taken _ _, fun a b => hbest.left _ _⟩
  obtain ⟨⟨pk, row⟩, hin, hchosen, hleast⟩ := best_spec
    ((directed_comparison (aggregateCmp_comparison intervals t) least).comap
      fun e : Text × Row => cell e.2 position)
    htakes (fun e he => htyped e.1 e.2 ((hmem e).mp he).1) hempty
  obtain ⟨hrow, hnull⟩ := (hmem (pk, row)).mp hin
  refine .inr ⟨pk, row, hrow, hnull, by rw [hchosen]; rfl, ?_, ?_⟩
  · exact fun pk' row' hrow' hnull' => hleast (pk', row') ((hmem (pk', row')).mpr ⟨hrow', hnull'⟩)
  intro hall pk' row' hrow' hnull' heq
  -- An equal interval behind the chosen one would have been taken.
  obtain ⟨init, tail, hsplit, hleft⟩ := best_last hchosen
  have hin' := (hmem (pk', row')).mpr ⟨hrow', hnull'⟩
  have hsorted : entries.Pairwise fun a b => a.1 < b.1 := rows.sorted.filter _
  rw [hsplit, pairwise_append] at hsorted
  rw [hsplit, mem_append, mem_cons] at hin'
  rcases hin' with hin' | heq' | hin'
  · exact (hsorted.2.2 _ hin' _ mem_cons_self).le
  · exact (congrArg Prod.fst heq').le
  have htake := hleft _ hin'
  rw [hall, takes, decide_eq_false_iff_not] at htake
  exact absurd (.inl ⟨rfl, heq⟩) htake

theorem aggregate_of_rows (least : Bool) {t : ValueType} {R : Text → Row → Prop}
    (hrows : ∀ pk row, rows.get? pk = some row ↔ R pk row)
    (htyped : ∀ pk row, R pk row → HasType t (cell row position)) :
    ∃ intervals : Bool, (intervals = true ↔ OnlyIntervals R position) ∧
      (((∀ pk row, R pk row → cell row position = .null) ∧
          aggregateMinMax least (columnValues rows position) = .null) ∨
        ∃ pk row, R pk row ∧ cell row position ≠ .null ∧
          aggregateMinMax least (columnValues rows position) = cell row position ∧
          IsExtreme (aggregateCmp intervals) least R position (cell row position) ∧
          (intervals = true → IsLast spanCmp R position pk (cell row position))) := by
  obtain rfl : R = fun pk row => rows.get? pk = some row :=
    funext₂ fun pk row => propext (hrows pk row).symm
  exact ⟨_, allIntervals_columnValues, aggregate_columnValues least htyped⟩

end Maps

end Spec

/-! ## The rows at the end of an index -/

section Queries

variable [Zones] [Primitives] [TypeNames]

/-- A query for the least or greatest value of the first key column of an index in order. -/
structure MinMaxQuery where
  idx : TableIndex
  ordered : idx.ordered = true
  table : IndexedTable idx
  /-- What the session has written. -/
  overlay : RowOverlay
  /-- The declared type of the column. -/
  dataType : Text
  type : ValueType
  /-- The rows have values of the column's type. -/
  typed : ∀ pk row, table.rows.get? pk = some row ∨ overlay.get? pk = some (some row) →
    HasType type (cell row idx.leading)
  least : Bool

namespace MinMaxQuery

variable (q : MinMaxQuery)

/-- The committed row that is read from the end of the index. -/
def IsEnd (pk : Text) (row : Row) : Prop := (pk, row) ∈ q.table.indexEndRows q.dataType q.least

/-- The rows that are read: the session's own, and the one at the end. -/
def Read (pk : Text) (row : Row) : Prop :=
  q.overlay.get? pk = some (some row) ∨ q.overlay.get? pk = none ∧ q.IsEnd pk row

def Seen (pk : Text) (row : Row) : Prop :=
  q.overlay.get? pk = some (some row) ∨
    q.overlay.get? pk = none ∧ q.table.rows.get? pk = some row

variable {pk : Text} {row : Row}

variable {q} in
theorem IsEnd.committed (h : q.IsEnd pk row) : q.table.rows.get? pk = some row := by
  unfold IsEnd IndexedTable.indexEndRows at h
  split at h
  · cases h
  dsimp only at h
  split at h
  · cases h
  next pk' _ =>
  obtain ⟨row', hrow', heq⟩ := Option.map_eq_some_iff.mp (Option.mem_toList.mp h)
  cases heq
  exact hrow'

variable {q} in
theorem Read.seen (h : q.Read pk row) : q.Seen pk row :=
  h.imp id fun h => ⟨h.1, h.2.committed⟩

variable {q} in
omit [TypeNames] in
theorem Seen.hasType (h : q.Seen pk row) : HasType q.type (cell row q.idx.leading) :=
  q.typed pk row (h.elim .inr fun h => .inl h.2)

/-- The rows that are read, and the rows that are seen. -/
def readRows : OrdMap Text Row :=
  mergeOverlayBy (q.table.indexEndRows q.dataType q.least) q.overlay fun _ => true

def seenRows : OrdMap Text Row := scanRowsKeyed q.table.rows q.overlay

theorem get?_readRows (pk : Text) (row : Row) : q.readRows.get? pk = some row ↔ q.Read pk row := by
  rw [readRows, get?_mergeOverlayBy (fun _ _ => Iff.rfl) fun _ _ h => IsEnd.committed h]
  simp [Read, IsEnd]

omit [TypeNames] in
theorem get?_seenRows (pk : Text) (row : Row) : q.seenRows.get? pk = some row ↔ q.Seen pk row := by
  rw [seenRows, scanRowsKeyed, OrdMap.get?_overlay, Seen]
  cases q.overlay.get? pk with
  | some own => simp
  | none => simp

/-! ## Encoded entries -/

/-- The committed rows that can be at the end: for the greatest value, those whose entry is
decoded to a value. -/
def Candidate (pk : Text) (row : Row) : Prop :=
  q.table.rows.get? pk = some row ∧
    (q.least = false → ∃ hex, indexKeyComponents q.idx.types (q.idx.keyValues row) = some hex ∧
      decodesToValue hex q.dataType = true)

/-- The committed row with the first or the last entry. -/
def HasEndEntry (pk : Text) (row : Row) : Prop :=
  q.Candidate pk row ∧ ∀ pk' row', q.Candidate pk' row' →
    if q.least then q.idx.entryKey pk row ≤ q.idx.entryKey pk' row'
    else q.idx.entryKey pk' row' ≤ q.idx.entryKey pk row

/-- The entries of the rows that can be at the end. -/
def candidateKeys : List Text :=
  if q.least then q.table.entries
  else q.table.entries.filter fun key =>
    (entryTail q.idx.indexId key).any fun tail => decodesToValue tail.1 q.dataType

theorem candidateKeys_sorted : q.candidateKeys.Pairwise (· < ·) := by
  unfold candidateKeys
  split
  · exact q.table.sorted
  · exact q.table.sorted.filter _

def endKey : Option Text :=
  if q.least then q.candidateKeys.head? else q.candidateKeys.getLast?

section Encoded

variable (hencoded : q.table.Encoded)

include hencoded

omit [TypeNames] in
theorem tail_of_row (h : q.table.rows.get? pk = some row) :
    ∃ hex, indexKeyComponents q.idx.types (q.idx.keyValues row) = some hex ∧
      entryTail q.idx.indexId (q.idx.entryKey pk row) = some (hex, pk) := by
  obtain ⟨hex, hhex, hentry⟩ := hencoded.entryKey q.ordered h
  have hsep : (45 : UInt8) ∉ hex := by
    intro hmem
    rcases components_letter hhex hmem with hletter | hletter
    all_goals exact absurd hletter (by decide)
  refine ⟨hex, hhex, ?_⟩
  rw [hentry, entryTail, stripPrefix_append, Option.bind_some, splitOnce_append _ hsep]

theorem mem_candidateKeys :
    key ∈ q.candidateKeys ↔ ∃ pk row, q.Candidate pk row ∧ q.idx.entryKey pk row = key := by
  unfold candidateKeys Candidate
  cases hleast : q.least with
  | true => simp [q.table.consistent]
  | false =>
    rw [if_neg (by decide), mem_filter, q.table.consistent]
    constructor
    · rintro ⟨⟨pk, row, hrow, rfl⟩, hany⟩
      obtain ⟨hex, hhex, htail⟩ := q.tail_of_row hencoded hrow
      rw [htail] at hany
      exact ⟨pk, row, ⟨hrow, fun _ => ⟨hex, hhex, hany⟩⟩, rfl⟩
    · rintro ⟨pk, row, ⟨hrow, hdecodes⟩, rfl⟩
      obtain ⟨hex, hhex, htail⟩ := q.tail_of_row hencoded hrow
      obtain ⟨hex', hhex', hvalue⟩ := hdecodes rfl
      cases hhex.symm.trans hhex'
      refine ⟨⟨pk, row, hrow, rfl⟩, ?_⟩
      rw [htail]
      exact hvalue

theorem endKey_eq_some_iff :
    q.endKey = some key ↔ ∃ pk row, q.HasEndEntry pk row ∧ q.idx.entryKey pk row = key := by
  have hends : q.endKey = some key ↔ key ∈ q.candidateKeys ∧
      ∀ b ∈ q.candidateKeys, if q.least then key ≤ b else b ≤ key := by
    unfold endKey
    split
    · exact head?_eq_some_iff q.candidateKeys_sorted
    · exact getLast?_eq_some_iff q.candidateKeys_sorted
  rw [hends, q.mem_candidateKeys hencoded]
  constructor
  · rintro ⟨⟨pk, row, hcandidate, rfl⟩, hall⟩
    exact ⟨pk, row, ⟨hcandidate, fun pk' row' h =>
      hall _ ((q.mem_candidateKeys hencoded).mpr ⟨pk', row', h, rfl⟩)⟩, rfl⟩
  · rintro ⟨pk, row, ⟨hcandidate, hall⟩, rfl⟩
    refine ⟨⟨pk, row, hcandidate, rfl⟩, fun b hb => ?_⟩
    obtain ⟨pk', row', h, rfl⟩ := (q.mem_candidateKeys hencoded).mp hb
    exact hall pk' row' h

omit [TypeNames] in
theorem between_eq_entries :
    q.table.between (indexBase q.idx.indexId ++ []) (indexBase q.idx.indexId ++ [] ++ ascii "G") =
      q.table.entries := by
  refine filter_eq_self.mpr fun key hkey => decide_eq_true ?_
  obtain ⟨pk, row, hrow, rfl⟩ := (q.table.consistent key).mp hkey
  obtain ⟨hex, hhex, hentry⟩ := hencoded.entryKey q.ordered hrow
  rw [hentry]
  exact (entry_between_iff (fun c hc => by cases hc) hhex).mpr nil_prefix

theorem indexEndRows_eq :
    q.table.indexEndRows q.dataType q.least =
      match q.endKey.bind (entryTail q.idx.indexId) with
      | none => []
      | some (_, pk) => ((q.table.rows.get? pk).map (pk, ·)).toList := by
  have hsome : ∀ key ∈ q.table.entries, (entryTail q.idx.indexId key).isSome = true := by
    intro key hkey
    obtain ⟨pk, row, hrow, rfl⟩ := (q.table.consistent key).mp hkey
    obtain ⟨hex, _, htail⟩ := q.tail_of_row hencoded hrow
    rw [htail]
    rfl
  have hchosen : (if q.least then (q.table.entries.filterMap (entryTail q.idx.indexId)).head?
      else ((q.table.entries.filterMap (entryTail q.idx.indexId)).filter fun tail =>
        decodesToValue tail.1 q.dataType).getLast?) = q.endKey.bind (entryTail q.idx.indexId) := by
    unfold endKey candidateKeys
    split
    · exact head?_filterMap_of_isSome hsome
    refine Eq.trans ?_ (getLast?_filterMap_of_isSome fun key hkey =>
      hsome key (mem_filter.mp hkey).1)
    rw [filter_filterMap, filterMap_filter]
    congr 2
    funext key
    cases entryTail q.idx.indexId key with
    | none => rfl
    | some tail => rfl
  rw [← hchosen, ← q.between_eq_entries hencoded]
  rfl

theorem isEnd_iff : q.IsEnd pk row ↔ q.HasEndEntry pk row := by
  rw [IsEnd, q.indexEndRows_eq hencoded]
  constructor
  · intro hmem
    split at hmem
    · cases hmem
    next hex pk' hchosen =>
    obtain ⟨key, hkey, htail⟩ := Option.bind_eq_some_iff.mp hchosen
    obtain ⟨pk'', row'', hend, rfl⟩ := (q.endKey_eq_some_iff hencoded).mp hkey
    obtain ⟨hex', _, htail'⟩ := q.tail_of_row hencoded hend.1.1
    cases htail'.symm.trans htail
    rw [hend.1.1] at hmem
    cases mem_singleton.mp hmem
    exact hend
  · intro hend
    obtain ⟨hex, _, htail⟩ := q.tail_of_row hencoded hend.1.1
    rw [(q.endKey_eq_some_iff hencoded).mpr ⟨pk, row, hend, rfl⟩, Option.bind_some, htail]
    show (pk, row) ∈ ((q.table.rows.get? pk).map (pk, ·)).toList
    rw [hend.1.1]
    exact mem_singleton_self _

end Encoded

/-! ## Plain columns -/

/-- The first key column has plain values, and all rows have an encoded entry. -/
structure PlainColumn (column : KeyColumn) : Prop where
  types : q.idx.types.head? = some column.dataType
  dataType : q.dataType = column.dataType
  kind : Kind.ofType column.dataType = none
  encoded : q.table.Encoded
  fits : ∀ pk row, q.table.rows.get? pk = some row → column.Fits (cell row q.idx.leading)

namespace PlainColumn

variable {q} {column : KeyColumn} {pk' : Text} {row' : Row}

omit [TypeNames] in
theorem components (h : q.PlainColumn column) (hrow : q.table.rows.get? pk = some row) :
    ∃ rest, indexKeyComponents q.idx.types (q.idx.keyValues row) =
        some (componentOf column (cell row q.idx.leading) ++ rest) ∧ ∀ c ∈ rest.head?, c = 33 := by
  obtain ⟨types, htypes⟩ : ∃ types, q.idx.types = column.dataType :: types :=
    ⟨_, (cons_head?_tail h.types).symm⟩
  obtain ⟨rest, hvalues⟩ : ∃ rest, q.idx.keyValues row = cell row q.idx.leading :: rest := by
    refine ⟨(q.idx.positions.tail).map (cell row), ?_⟩
    rw [TableIndex.keyValues, TableIndex.leading, ← map_cons, cons_head_tail]
  obtain ⟨components, hcomponents⟩ :=
    Option.isSome_iff_exists.mp ((h.encoded q.ordered).2 pk row hrow)
  rw [htypes, hvalues, keyComponents, keyComponent_of_fits (h.fits pk row hrow)] at hcomponents
  obtain ⟨first, hfirst, hcomponents⟩ := Option.bind_eq_some_iff.mp hcomponents
  obtain ⟨others, hothers, heq⟩ := Option.bind_eq_some_iff.mp hcomponents
  cases heq
  refine ⟨if others = [] then [] else ascii "!" ++ joinText (ascii "!") others, ?_, ?_⟩
  · rw [indexKeyComponents, htypes, hvalues, keyComponents,
      keyComponent_of_fits (h.fits pk row hrow)]
    show ((keyComponents types rest).bind fun components => _).map _ = _
    rw [hothers, Option.bind_some, Option.map_some, joinText_cons]
  · split
    · simp
    · rintro c ⟨⟩
      rfl

theorem decodes_iff (h : q.PlainColumn column) (hrow : q.table.rows.get? pk = some row)
    (hhex : indexKeyComponents q.idx.types (q.idx.keyValues row) = some hex) :
    decodesToValue hex q.dataType = true ↔ cell row q.idx.leading ≠ .null := by
  obtain ⟨rest, hkey, hrest⟩ := h.components hrow
  cases hhex.symm.trans hkey
  have hfits := h.fits pk row hrow
  have hfirst : (componentOf column (cell row q.idx.leading) ++ rest).takeWhile (· ≠ 33) =
      componentOf column (cell row q.idx.leading) := by
    rw [takeWhile_append_of_pos fun c hc => ?_]
    · cases rest with
      | nil => rw [takeWhile_nil, append_nil]
      | cons c rest => rw [takeWhile_cons_of_neg (by simp [hrest c rfl]), append_nil]
    · have hletter := hexLetter_of_mem_component (keyComponent_of_fits hfits) hc
      rw [decide_eq_true_eq]
      rintro rfl
      exact absurd hletter (by decide)
  rw [decodesToValue, hfirst, h.dataType, componentOf, keyComponent, hfits.keyBytes,
    Option.map_some, Option.getD_some, decodeKeyComponent, if_pos rfl, unhex_hexText]
  generalize cell row q.idx.leading = v at hfits
  have hpayload : ∀ payload, (decodePayload payload column.dataType).any (fun v => ¬ v.isNull) =
      true := by
    intro payload
    rw [decodePayload_plain h.kind]
    split <;> rfl
  cases v with
  | null => simp [plainBytes, Value.isNull]
  | int n | bool b | text s => exact iff_of_true (hpayload _) (by simp)
  | _ => exact hfits.elim

omit [TypeNames] in
theorem entryKey_lt (h : q.PlainColumn column) (hrow : q.table.rows.get? pk = some row)
    (hrow' : q.table.rows.get? pk' = some row')
    (hlt : keyLt (cell row q.idx.leading) (cell row' q.idx.leading)) :
    q.idx.entryKey pk row < q.idx.entryKey pk' row' := by
  obtain ⟨hex, hhex, hentry⟩ := h.encoded.entryKey q.ordered hrow
  obtain ⟨hex', hhex', hentry'⟩ := h.encoded.entryKey q.ordered hrow'
  obtain ⟨rest, hkey, -⟩ := h.components hrow
  obtain ⟨rest', hkey', -⟩ := h.components hrow'
  cases hhex.symm.trans hkey
  cases hhex'.symm.trans hkey'
  rw [hentry, hentry', append_lt_append_left_iff, append_assoc, append_assoc]
  exact (component_below (h.fits pk row hrow) (h.fits pk' row' hrow') hlt).lt_append _ _

theorem exists_end (h : q.PlainColumn column) (hrow : q.table.rows.get? pk = some row)
    (hnull : cell row q.idx.leading ≠ .null) :
    ∃ pk' row', q.IsEnd pk' row' ∧ cell row' q.idx.leading ≠ .null ∧
      directed q.least compare (cell row' q.idx.leading) (cell row q.idx.leading) ≠ .gt := by
  have hcandidate : q.Candidate pk row := by
    refine ⟨hrow, fun _ => ?_⟩
    obtain ⟨rest, hkey, -⟩ := h.components hrow
    exact ⟨_, hkey, (h.decodes_iff hrow hkey).mpr hnull⟩
  obtain ⟨key, hkey⟩ : ∃ key, q.endKey = some key := by
    have hmem := (q.mem_candidateKeys h.encoded).mpr ⟨pk, row, hcandidate, rfl⟩
    unfold endKey
    split
    · exact ⟨_, head?_eq_some_head (ne_nil_of_mem hmem)⟩
    · exact ⟨_, getLast?_eq_some_getLast (ne_nil_of_mem hmem)⟩
  obtain ⟨pk', row', hend, -⟩ := (q.endKey_eq_some_iff h.encoded).mp hkey
  have hrow' := hend.1.1
  have horder := hend.2 pk row hcandidate
  refine ⟨pk', row', (q.isEnd_iff h.encoded).mpr hend, ?_⟩
  have hfits := h.fits pk row hrow
  have hfits' := h.fits pk' row' hrow'
  cases hleast : q.least with
  | true =>
    rw [hleast, if_pos rfl] at horder
    have hnot : ¬ keyLt (cell row q.idx.leading) (cell row' q.idx.leading) := fun hlt =>
      absurd (h.entryKey_lt hrow hrow' hlt) (not_lt.mpr horder)
    have hnull' : cell row' q.idx.leading ≠ .null := fun hn => hnot ⟨hnull, .inl hn⟩
    refine ⟨hnull', fun hgt => hnot ?_⟩
    exact (compare_eq_gt_iff hfits' hfits hnull' hnull).mp hgt
  | false =>
    rw [hleast, if_neg (by decide)] at horder
    have hnot : ¬ keyLt (cell row' q.idx.leading) (cell row q.idx.leading) := fun hlt =>
      absurd (h.entryKey_lt hrow' hrow hlt) (not_lt.mpr horder)
    obtain ⟨hex, hhex, hdecodes⟩ := hend.1.2 hleast
    have hnull' := (h.decodes_iff hrow' hhex).mp hdecodes
    refine ⟨hnull', fun hgt => hnot ?_⟩
    exact (compare_eq_gt_iff hfits hfits' hnull hnull').mp hgt

end PlainColumn

variable [Intervals]

def fromIndex : Value := q.table.minMaxFromIndex q.overlay q.dataType q.least

def ofRows : Value := q.table.minMaxOfRows q.overlay q.least

/-- The results are equal in the order of the aggregate: as intervals, if all values that are seen
are intervals. -/
def Agrees : Prop :=
  (q.fromIndex = .null ↔ q.ofRows = .null) ∧
    (OnlyIntervals q.Seen q.idx.leading → spanCmp q.fromIndex q.ofRows = .eq) ∧
    (¬ OnlyIntervals q.Seen q.idx.leading → compare q.fromIndex q.ofRows = .eq)

/-- One of the rows read has the extreme value. Where the rows read have intervals only and those
seen have not, it must also be the one that the aggregate of intervals takes. -/
def ReadsExtreme : Prop :=
  (∀ pk row, q.Seen pk row → cell row q.idx.leading = .null) ∨
    ∃ pk row, q.Read pk row ∧ cell row q.idx.leading ≠ .null ∧
      (OnlyIntervals q.Seen q.idx.leading →
        IsExtreme spanCmp q.least q.Seen q.idx.leading (cell row q.idx.leading)) ∧
      (¬ OnlyIntervals q.Seen q.idx.leading →
        IsExtreme compare q.least q.Seen q.idx.leading (cell row q.idx.leading)) ∧
      (OnlyIntervals q.Read q.idx.leading → ¬ OnlyIntervals q.Seen q.idx.leading →
        IsExtreme spanCmp q.least q.Read q.idx.leading (cell row q.idx.leading) ∧
          IsLast spanCmp q.Read q.idx.leading pk (cell row q.idx.leading))

theorem agrees_iff {intervals : Bool} (h : intervals = true ↔ OnlyIntervals q.Seen q.idx.leading) :
    q.Agrees ↔ (q.fromIndex = .null ↔ q.ofRows = .null) ∧
      aggregateCmp intervals q.fromIndex q.ofRows = .eq := by
  refine and_congr_right fun _ => ?_
  cases intervals with
  | true =>
    have hseen := h.mp rfl
    exact ⟨fun h => h.1 hseen, fun h => ⟨fun _ => h, fun hnot => absurd hseen hnot⟩⟩
  | false =>
    have hseen : ¬ OnlyIntervals q.Seen q.idx.leading := fun hseen => by cases h.mpr hseen
    exact ⟨fun h => h.2 hseen, fun h => ⟨fun hyes => absurd hyes hseen, fun _ => h⟩⟩

theorem readsExtreme_iff {seen read : Bool}
    (hseen : seen = true ↔ OnlyIntervals q.Seen q.idx.leading)
    (hread : read = true ↔ OnlyIntervals q.Read q.idx.leading) :
    q.ReadsExtreme ↔ (∀ pk row, q.Seen pk row → cell row q.idx.leading = .null) ∨
      ∃ pk row, q.Read pk row ∧ cell row q.idx.leading ≠ .null ∧
        IsExtreme (aggregateCmp seen) q.least q.Seen q.idx.leading (cell row q.idx.leading) ∧
        (read = true → seen = false →
          IsExtreme (aggregateCmp read) q.least q.Read q.idx.leading (cell row q.idx.leading) ∧
            IsLast spanCmp q.Read q.idx.leading pk (cell row q.idx.leading)) := by
  refine or_congr_right (exists_congr fun pk => exists_congr fun row => and_congr_right fun hrow =>
    and_congr_right fun hnull => ?_)
  rw [← hseen, ← hread]
  cases seen with
  | true => simp [aggregateCmp]
  | false =>
    cases read with
    | true => simp [aggregateCmp]
    | false => simp [aggregateCmp]

variable {q} in
/-- If the session has not written the row at the end and no value is an interval, a row that is
read has the extreme value. -/
theorem PlainColumn.readsExtreme {column : KeyColumn} (h : q.PlainColumn column)
    (hspans : ∀ pk row, q.Seen pk row → spanOf (cell row q.idx.leading) = none)
    (hown : ∀ pk row, q.IsEnd pk row → q.overlay.get? pk = none) : q.ReadsExtreme := by
  have hnone : ∀ {R : Text → Row → Prop}, (∀ pk row, R pk row → q.Seen pk row) →
      ¬ OnlyIntervals R q.idx.leading := by
    rintro R hR ⟨⟨pk, row, hrow, hnull⟩, hall⟩
    have hspan := hall pk row hrow hnull
    rw [hspans pk row (hR pk row hrow)] at hspan
    cases hspan
  obtain ⟨intervals, hintervals, hread⟩ := aggregate_of_rows q.least q.get?_readRows
    fun _ _ h => h.seen.hasType
  obtain rfl : intervals = false :=
    Bool.eq_false_of_not_eq_true fun hyes => hnone (fun _ _ => Read.seen) (hintervals.mp hyes)
  have hcmp := directed_comparison (compare_comparison q.type) q.least
  -- Behind a committed row with a value there is the row at the end, which is read.
  have hend : ∀ {pk row}, q.Seen pk row → cell row q.idx.leading ≠ .null → ∃ pk' row',
      q.Read pk' row' ∧ cell row' q.idx.leading ≠ .null ∧
        directed q.least compare (cell row' q.idx.leading) (cell row q.idx.leading) ≠ .gt := by
    rintro pk row (hrow | ⟨-, hrow⟩) hnull
    · refine ⟨pk, row, .inl hrow, hnull, ?_⟩
      rw [hcmp.refl (q.typed pk row (.inr hrow))]
      decide
    · obtain ⟨pk', row', hend, hnull', hle⟩ := h.exists_end hrow hnull
      exact ⟨pk', row', .inr ⟨hown pk' row' hend, hend⟩, hnull', hle⟩
  rcases hread with ⟨hempty, -⟩ | ⟨pk, row, hrow, hnull, -, hextreme, -⟩
  · refine .inl fun pk row hrow => ?_
    by_contra hnull
    obtain ⟨pk', row', hread, hnull', -⟩ := hend hrow hnull
    exact hnull' (hempty pk' row' hread)
  refine .inr ⟨pk, row, hrow, hnull, fun hyes => absurd hyes (hnone fun _ _ h => h),
    fun _ pk' row' hrow' hnull' => ?_, fun hyes => absurd hyes (hnone fun _ _ => Read.seen)⟩
  obtain ⟨pk'', row'', hread, hnull'', hle⟩ := hend hrow' hnull'
  exact hcmp.trans _ _ _ hrow.seen.hasType hread.seen.hasType hrow'.hasType
    (hextreme pk'' row'' hread hnull'') hle

end MinMaxQuery

end Queries

theorem spans_eq [Intervals] (least : Bool) {a b : Value} (hab : directed least spanCmp a b ≠ .gt)
    (hba : directed least spanCmp b a ≠ .gt) : spanCmp a b = .eq ∧ spanCmp b a = .eq := by
  have hcmp := spanCmp_comparison fun _ => True
  have heq : spanCmp a b = .eq := by
    cases least with
    | true => exact hcmp.eq_of_le_of_le trivial trivial hab hba
    | false => exact hcmp.eq_of_le_of_le trivial trivial hba hab
  exact ⟨heq, (hcmp.eq_comm trivial trivial).mp heq⟩

theorem MinMaxQuery.agrees_iff_readsExtreme [Zones] [Primitives] [TypeNames] [Intervals]
    (q : MinMaxQuery) : q.Agrees ↔ q.ReadsExtreme := by
  obtain ⟨read, hread, hfrom⟩ := aggregate_of_rows q.least q.get?_readRows
    fun _ _ h => h.seen.hasType
  obtain ⟨seen, hseen, hof⟩ := aggregate_of_rows q.least q.get?_seenRows fun _ _ h => h.hasType
  rw [q.agrees_iff hseen, q.readsExtreme_iff hseen hread]
  have hcmp := aggregateCmp_comparison seen q.type
  have hdirected := directed_comparison hcmp q.least
  rcases hof with ⟨hempty, hof⟩ | ⟨pkB, rowB, hB, hnullB, hof, hextremeB, _⟩
  · -- Only NULL values are seen.
    refine iff_of_true ?_ (.inl hempty)
    have hfrom : q.fromIndex = .null := by
      rcases hfrom with ⟨_, hfrom⟩ | ⟨pk, row, h, hnull, _⟩
      · exact hfrom
      · exact absurd (hempty pk row h.seen) hnull
    have hof : q.ofRows = .null := hof
    rw [hfrom, hof]
    exact ⟨Iff.rfl, hcmp.refl (hasType_null _)⟩
  have hof : q.ofRows = cell rowB q.idx.leading := hof
  have htypeB := hB.hasType
  rw [or_iff_right fun h => hnullB (h pkB rowB hB), hof, iff_false_right hnullB]
  constructor
  · rintro ⟨hnull, heq⟩
    rcases hfrom with ⟨_, hfrom⟩ | ⟨pk, row, h, hnullA, hfrom, hextremeA, hlast⟩
    · exact absurd hfrom hnull
    have hfrom : q.fromIndex = cell row q.idx.leading := hfrom
    have htypeA := h.seen.hasType
    rw [hfrom] at heq
    refine ⟨pk, row, h, hnullA, fun pk' row' h' hnull' => ?_,
      fun hread _ => ⟨hextremeA, hlast hread⟩⟩
    · have heq' : directed q.least (aggregateCmp seen) (cell row q.idx.leading)
          (cell rowB q.idx.leading) = .eq := by
        unfold directed
        split
        · exact heq
        · exact (hcmp.eq_comm htypeA htypeB).mp heq
      rw [hdirected.congr_left htypeA htypeB h'.hasType heq']
      exact hextremeB pk' row' h' hnull'
  · rintro ⟨pk, row, h, hnull, hextreme, hmixed⟩
    rcases hfrom with ⟨hempty, _⟩ | ⟨pkA, rowA, hA, hnullA, hfrom, hextremeA, hlast⟩
    · exact absurd (hempty pk row h) hnull
    have hfrom : q.fromIndex = cell rowA q.idx.leading := hfrom
    have htypeA := hA.seen.hasType
    -- The row that the aggregate takes is as good as the one that has the extreme value.
    have hle : directed q.least (aggregateCmp seen) (cell rowA q.idx.leading)
        (cell row q.idx.leading) ≠ .gt := by
      by_cases hsame : read = seen
      · rw [← hsame]
        exact hextremeA pk row h hnull
      obtain ⟨rfl, rfl⟩ : read = true ∧ seen = false := by
        have hintervals : seen = true → read = true := fun hyes => hread.mpr
          ⟨⟨pk, row, h, hnull⟩, fun pk' row' h' => (hseen.mp hyes).2 pk' row' h'.seen⟩
        revert hsame hintervals
        cases seen <;> cases read <;> decide
      obtain ⟨hshortest, hlast'⟩ := hmixed rfl rfl
      have heq := spans_eq q.least (hextremeA pk row h hnull) (hshortest pkA rowA hA hnullA)
      have hpk : pkA = pk := le_antisymm (hlast' pkA rowA hA hnullA heq.1)
        (hlast rfl pk row h hnull heq.2)
      subst hpk
      have hrow : rowA = row := Option.some.inj
        (((q.get?_readRows pkA rowA).mpr hA).symm.trans ((q.get?_readRows pkA row).mpr h))
      rw [hrow, hdirected.refl h.seen.hasType]
      decide
    have hAB := hdirected.trans _ _ _ htypeA h.seen.hasType htypeB hle
      (hextreme pkB rowB hB hnullB)
    have heq := hdirected.eq_of_le_of_le htypeA htypeB hAB (hextremeB pkA rowA hA.seen hnullA)
    rw [hfrom]
    refine ⟨hnullA, ?_⟩
    unfold directed at heq
    split at heq
    · exact heq
    · exact (hcmp.eq_comm htypeB htypeA).mp heq

namespace Fixed

@[reducible] def intervals : Intervals := ⟨fun _ => none⟩

/-- An index in order on one column of integers. -/
def intIndex : TableIndex := ⟨ascii "1", [ascii "INT"], true, [0], first_ne_nil⟩

def rowOne : Row := [.int 1]

def rowTwo : Row := [.int 2]

def twoRows : OrdMap Text Row := (OrdMap.empty.insert (ascii "1") rowOne).insert (ascii "2") rowTwo

theorem get?_twoRows (h : twoRows.get? pk = some row) :
    pk = ascii "1" ∧ row = rowOne ∨ pk = ascii "2" ∧ row = rowTwo := by
  rw [twoRows, OrdMap.get?_insert, OrdMap.get?_insert] at h
  split at h
  next hpk => exact .inr ⟨hpk, (Option.some.inj h).symm⟩
  split at h
  next hpk => exact .inl ⟨hpk, (Option.some.inj h).symm⟩
  · cases h

/-- A table with the rows `1` and `2`. -/
def oneAndTwo :
    letI := zones
    letI := evaluator fun _ => none
    IndexedTable intIndex :=
  letI := zones
  letI := evaluator fun _ => none
  { rows := twoRows
    entries := [intIndex.entryKey (ascii "1") rowOne, intIndex.entryKey (ascii "2") rowTwo]
    sorted := List.pairwise_pair.mpr (by decide +kernel)
    consistent := by
      intro key
      rw [List.mem_pair]
      constructor
      · rintro (rfl | rfl)
        · exact ⟨ascii "1", rowOne, rfl, rfl⟩
        · exact ⟨ascii "2", rowTwo, rfl, rfl⟩
      · rintro ⟨pk, row, hrow, rfl⟩
        rcases get?_twoRows hrow with ⟨rfl, rfl⟩ | ⟨rfl, rfl⟩
        · exact .inl rfl
        · exact .inr rfl }

/-- The least value, after the session has deleted the row `1`. -/
def leastAfterDelete :
    letI := zones
    letI := evaluator fun _ => none
    MinMaxQuery :=
  letI := zones
  letI := evaluator fun _ => none
  { idx := intIndex
    ordered := rfl
    table := oneAndTwo
    overlay := OrdMap.empty.insert (ascii "1") none
    dataType := ascii "INT"
    type := .int
    typed := by
      rintro pk row (hrow | hown)
      · rcases get?_twoRows hrow with ⟨_, rfl⟩ | ⟨_, rfl⟩
        · trivial
        · trivial
      · rw [OrdMap.get?_insert] at hown
        split at hown <;> cases hown
    least := true }

end Fixed

end NodusDb.Sql
