import NodusDb.Sql.FilterEval
import NodusDb.Sql.IndexKeys

/-!
# The part of an index that a scan reads

A scan with equalities on the first key columns and bounds on the next one reads the entries from
one key to another. Nothing stands between the encodings of the equalities and of a bound, but
entries have a `!` there.

* `index_region_exact`: when the entries read are the matching ones.
-/

namespace NodusDb.Sql

open List Option

section Bounds

variable {w v : Text} {sep : UInt8}

theorem entry_cases (r : Text) (h : Below w v ∨ w = v ∨ Below v w) (hsep : sep < 48) :
    (Below w v ∧ ∀ x, w ++ sep :: r < v ++ x) ∨
      (w = v ∧ v ≤ w ++ sep :: r ∧ w ++ sep :: r < v ++ ascii "01") ∨
      (Below v w ∧ ∀ x, v ++ x < w ++ sep :: r) := by
  rcases h with h | rfl | h
  · exact .inl ⟨h, fun x => h.lt_append _ _⟩
  · refine .inr (.inl ⟨rfl, le_append _ _, ?_⟩)
    rw [append_lt_append_left_iff]
    exact (below_cons hsep r [49]).lt
  · exact .inr (.inr ⟨h, fun x => h.lt_append _ _⟩)

theorem le_entry_iff (r : Text) (h : Below w v ∨ w = v ∨ Below v w) (hsep : sep < 48) :
    v ≤ w ++ sep :: r ↔ ¬ Below w v := by
  rcases entry_cases r h hsep with ⟨hlt, hx⟩ | ⟨rfl, hle, _⟩ | ⟨hlt, hx⟩
  · have := hx []
    rw [append_nil] at this
    exact iff_of_false (not_le.mpr this) (not_not.mpr hlt)
  · exact iff_of_true hle fun hlt => hlt.ne rfl
  · have := hx []
    rw [append_nil] at this
    exact iff_of_true this.le fun hlt' => lt_asymm hlt.lt hlt'.lt

theorem entry_lt_iff (r : Text) (h : Below w v ∨ w = v ∨ Below v w) (hsep : sep < 48) :
    w ++ sep :: r < v ↔ Below w v := by
  rw [← not_le, le_entry_iff r h hsep, not_not]

theorem entry_lt_behind_iff (r : Text) (h : Below w v ∨ w = v ∨ Below v w) (hsep : sep < 48) :
    w ++ sep :: r < v ++ ascii "01" ↔ ¬ Below v w := by
  rcases entry_cases r h hsep with ⟨hlt, hx⟩ | ⟨rfl, _, hle⟩ | ⟨hlt, hx⟩
  · exact iff_of_true (hx _) fun hlt' => lt_asymm hlt.lt hlt'.lt
  · exact iff_of_true hle fun hlt => hlt.ne rfl
  · exact iff_of_false (not_lt.mpr (hx _).le) (not_not.mpr hlt)

theorem behind_le_entry_iff (r : Text) (h : Below w v ∨ w = v ∨ Below v w) (hsep : sep < 48) :
    v ++ ascii "01" ≤ w ++ sep :: r ↔ Below v w := by
  rw [← not_lt, entry_lt_behind_iff r h hsep, not_not]

end Bounds

/-! ## Conditions on an index -/

/-- A row with its key values and its primary key. -/
structure KeyRow (columns : List KeyColumn) where
  key : List Value
  typed : Typed columns key
  full : key.length = columns.length
  pk : Text

/-- Equalities on the first key columns and bounds on the next one. -/
structure IndexQuery (columns : List KeyColumn) where
  equalities : List Value
  typed : Typed columns equalities
  length_le : equalities.length ≤ columns.length
  lower : Option Bound
  upper : Option Bound
  bounds_typed : ∀ bound, bound ∈ lower ∨ bound ∈ upper →
    ∃ column ∈ columns[equalities.length]?, column.Fits bound.1 ∧ bound.1 ≠ .null

section Query

variable {columns : List KeyColumn}

/-- The value behind those that the equalities are about. -/
def KeyRow.next (q : IndexQuery columns) (row : KeyRow columns) : Option Value :=
  row.key[q.equalities.length]?

def IndexQuery.range (q : IndexQuery columns) : Option RangeBounds :=
  if q.lower = none ∧ q.upper = none then none
  else columns[q.equalities.length]?.map fun column => ⟨column.dataType, q.lower, q.upper⟩

section Within

variable [Primitives]

def withinLower : Option Bound → Value → Bool
  | none, _ => true
  | some (bound, inclusive), value =>
    if inclusive then compare value bound ≠ .lt else compare value bound = .gt

def withinUpper : Option Bound → Value → Bool
  | none, _ => true
  | some (bound, inclusive), value =>
    if inclusive then compare value bound ≠ .gt else compare value bound = .lt

/-- The row has the values of the equalities, and the next value is within the bounds. -/
def IndexQuery.Matches (q : IndexQuery columns) (row : KeyRow columns) : Prop :=
  row.key.take q.equalities.length = q.equalities ∧
    ∀ value ∈ row.next q, value ≠ .null ∧ withinLower q.lower value = true ∧
      withinUpper q.upper value = true

end Within

section Scan

variable [Zones]

def KeyRow.entry (indexId : Text) (row : KeyRow columns) : Option Text :=
  indexKeyFor indexId row.pk (columns.map (·.dataType)) row.key

/-- The keys that a scan for the conditions reads. -/
def IndexQuery.region (indexId : Text) (q : IndexQuery columns) : Option (Text × Text) := do
  let prefixHex ← indexKeyComponents
    ((columns.take q.equalities.length).map (·.dataType)) q.equalities
  indexPrefixRegion indexId prefixHex q.range

def IndexQuery.Scans (indexId : Text) (q : IndexQuery columns) (row : KeyRow columns) : Prop :=
  ∃ region entry, q.region indexId = some region ∧ row.entry indexId = some entry ∧
    region.1 ≤ entry ∧ entry < region.2

variable (q : IndexQuery columns) (row : KeyRow columns)

/-! ## The words of a region -/

/-- What an entry has behind the id of the index. -/
def KeyRow.word : Text := joinText (ascii "!") (componentsOf columns row.key) ++ 45 :: row.pk

def IndexQuery.prefixWord : Text := joinText (ascii "!") (componentsOf columns q.equalities)

def IndexQuery.boundWord (bound : Value) : Text :=
  (columns[q.equalities.length]?.map (componentOf · bound)).getD []

def IndexQuery.startWord : Text :=
  match q.lower with
  | none => []
  | some (bound, inclusive) => q.boundWord bound ++ if inclusive then [] else ascii "01"

def IndexQuery.stopWord : Text :=
  match q.upper with
  | none => ascii "G"
  | some (bound, inclusive) => q.boundWord bound ++ if inclusive then ascii "01" else []

theorem KeyRow.entry_eq (indexId : Text) :
    row.entry indexId = some (indexBase indexId ++ row.word) := by
  have htypes : columns.take row.key.length = columns := by
    rw [row.full, take_length]
  have h := keyComponents_of_typed row.typed
  rw [htypes] at h
  rw [entry, indexKeyFor, indexKeyComponents, h, word, map_some,
    map_some, append_assoc, append_assoc]
  rfl

variable {column : KeyColumn}

theorem IndexQuery.keyComponent_bound (h : bound ∈ q.lower ∨ bound ∈ q.upper)
    (hcolumn : columns[q.equalities.length]? = some column) :
    column.Fits bound.1 ∧ bound.1 ≠ .null ∧
      keyComponent bound.1 column.dataType = some (q.boundWord bound.1) := by
  obtain ⟨column', hcolumn', hfits, hnull⟩ := q.bounds_typed bound h
  cases hcolumn.symm.trans hcolumn'
  refine ⟨hfits, hnull, ?_⟩
  rw [keyComponent_of_fits hfits, boundWord, hcolumn]
  rfl

theorem IndexQuery.regionStart_eq (base : Text)
    (hcolumn : columns[q.equalities.length]? = some column) :
    regionStart base column.dataType q.lower = some (base ++ q.startWord) := by
  rw [startWord]
  cases hlower : q.lower with
  | none => rw [regionStart, append_nil]
  | some bound =>
    obtain ⟨value, inclusive⟩ := bound
    rw [regionStart, (q.keyComponent_bound (.inl hlower) hcolumn).2.2]
    cases inclusive with
    | false => simp [append_assoc]
    | true => simp

theorem IndexQuery.regionEnd_eq (base : Text)
    (hcolumn : columns[q.equalities.length]? = some column) :
    regionEnd base column.dataType q.upper = some (base ++ q.stopWord) := by
  rw [stopWord]
  cases hupper : q.upper with
  | none => rw [regionEnd]
  | some bound =>
    obtain ⟨value, inclusive⟩ := bound
    rw [regionEnd, (q.keyComponent_bound (.inr hupper) hcolumn).2.2]
    cases inclusive with
    | false => simp
    | true => simp [append_assoc]

theorem IndexQuery.region_eq (indexId : Text) :
    q.region indexId = some (indexBase indexId ++ (q.prefixWord ++ q.startWord),
      indexBase indexId ++ (q.prefixWord ++ q.stopWord)) := by
  have hbegins : q.region indexId = indexPrefixRegion indexId q.prefixWord q.range := by
    rw [region, indexKeyComponents, keyComponents_of_typed q.typed]
    rfl
  rw [hbegins]
  by_cases h : q.lower = none ∧ q.upper = none
  · rw [range, if_pos h, startWord, stopWord, h.1, h.2,
      append_nil, ← append_assoc]
    rfl
  obtain ⟨bound, hbound⟩ : ∃ bound, bound ∈ q.lower ∨ bound ∈ q.upper := by
    rcases not_and_or.mp h with h | h
    · obtain ⟨bound, hbound⟩ := ne_none_iff_exists'.mp h
      exact ⟨bound, .inl hbound⟩
    · obtain ⟨bound, hbound⟩ := ne_none_iff_exists'.mp h
      exact ⟨bound, .inr hbound⟩
  obtain ⟨column, hcolumn, _, _⟩ := q.bounds_typed bound hbound
  rw [range, if_neg h, hcolumn, map_some]
  simp only [indexPrefixRegion, q.regionStart_eq _ hcolumn, q.regionEnd_eq _ hcolumn,
    bind_eq_bind, bind_some, append_assoc]

theorem IndexQuery.scans_iff (indexId : Text) :
    q.Scans indexId row ↔
      q.prefixWord ++ q.startWord ≤ row.word ∧ row.word < q.prefixWord ++ q.stopWord := by
  rw [Scans, q.region_eq, row.entry_eq]
  constructor
  · rintro ⟨region, entry, hregion, hentry, hle, hlt⟩
    cases hregion
    cases hentry
    exact ⟨(append_le_append_left_iff _ _ _).mp hle, (append_lt_append_left_iff _ _ _).mp hlt⟩
  · rintro ⟨hle, hlt⟩
    exact ⟨_, _, rfl, rfl, (append_le_append_left_iff _ _ _).mpr hle,
      (append_lt_append_left_iff _ _ _).mpr hlt⟩

section Others

variable [Primitives] {q row}

theorem IndexQuery.not_scans_of_lt (indexId : Text) (h : tupleLt row.key q.equalities) :
    ¬ q.Scans indexId row := by
  rw [q.scans_iff]
  intro hscans
  have hlt : row.word < q.prefixWord := by
    have := (components_below row.typed q.typed h).lt_append (45 :: row.pk) []
    rwa [append_nil] at this
  exact absurd (hlt.trans_le (le_append _ _)) (not_lt.mpr hscans.1)

theorem IndexQuery.not_scans_of_gt (indexId : Text) (h : tupleLt q.equalities row.key) :
    ¬ q.Scans indexId row := by
  rw [q.scans_iff]
  intro hscans
  have hlt : q.prefixWord ++ q.stopWord < row.word :=
    (components_below q.typed row.typed h).lt_append _ _
  exact lt_asymm hlt hscans.2

theorem IndexQuery.Scans.take_eq (h : q.Scans indexId row) :
    row.key.take q.equalities.length = q.equalities := by
  have hlength : q.equalities.length ≤ row.key.length := row.full ▸ q.length_le
  rcases tupleLt_trichotomy row.typed q.typed hlength with hlt | heq | hgt
  · exact absurd h (not_scans_of_lt indexId hlt)
  · exact heq
  · exact absurd h (not_scans_of_gt indexId hgt)

end Others

/-! ## Rows with the values of the equalities -/

omit [Zones] in
theorem joinText_append (sep : Text) (h : ts ≠ []) :
    joinText sep (ts ++ us) = joinText sep ts ++ (if us = [] then [] else sep ++ joinText sep us) := by
  induction ts with
  | nil => exact absurd rfl h
  | cons t ts ih =>
    cases ts with
    | nil => rw [singleton_append, joinText_cons, joinText]
    | cons t' ts =>
      rw [cons_append, joinText_cons, if_neg (by simp), ih (cons_ne_nil _ _),
        joinText_cons sep t, if_neg (cons_ne_nil _ _)]
      simp only [append_assoc]

theorem KeyRow.componentsOf_eq (h : row.key.take q.equalities.length = q.equalities) :
    componentsOf columns row.key = componentsOf columns q.equalities ++
      componentsOf (columns.drop q.equalities.length) (row.key.drop q.equalities.length) := by
  have hkey : row.key = q.equalities ++ row.key.drop q.equalities.length := by
    conv_lhs => rw [← take_append_drop q.equalities.length row.key, h]
  rw [hkey, componentsOf_append q.length_le, ← hkey]

theorem KeyRow.word_eq (h : row.key.take q.equalities.length = q.equalities)
    (hne : q.equalities ≠ []) : ∃ sep r, sep < 48 ∧ row.word = q.prefixWord ++ sep :: r := by
  have hcomponents : componentsOf columns q.equalities ≠ [] := by
    intro hnil
    have hlength := congrArg length hnil
    rw [componentsOf, length_zipWith, length_nil] at hlength
    have := length_pos_of_ne_nil hne
    have := q.length_le
    omega
  rw [word, row.componentsOf_eq q h, joinText_append _ hcomponents]
  split
  · exact ⟨45, row.pk, by decide, by rw [append_nil]; rfl⟩
  · exact ⟨33, _, by decide, by rw [append_assoc]; rfl⟩

section Rows

variable [Primitives] {q row}

omit [Primitives] in
theorem IndexQuery.boundWord_head (h : bound ∈ q.lower ∨ bound ∈ q.upper) :
    ∃ rest, q.boundWord bound.1 = 48 :: rest := by
  obtain ⟨column, hcolumn, hfits, _⟩ := q.bounds_typed bound h
  rw [boundWord, hcolumn]
  exact component_head hfits

theorem IndexQuery.scans_of_equalities (indexId : Text) (hne : q.equalities ≠ []) :
    q.Scans indexId row ↔
      q.lower = none ∧ row.key.take q.equalities.length = q.equalities := by
  constructor
  · intro hscans
    refine ⟨?_, hscans.take_eq⟩
    obtain ⟨sep, r, hsep, hword⟩ := row.word_eq q hscans.take_eq hne
    rw [q.scans_iff, hword, append_le_append_left_iff] at hscans
    cases hlower : q.lower with
    | none => rfl
    | some bound =>
      obtain ⟨rest, hrest⟩ := q.boundWord_head (.inl hlower)
      have hstart : q.startWord = 48 :: (rest ++ if bound.2 then [] else ascii "01") := by
        rw [startWord, hlower]
        show q.boundWord bound.1 ++ _ = _
        rw [hrest, cons_append]
      rw [hstart] at hscans
      exact absurd (below_cons hsep r _).lt (not_lt.mpr hscans.1)
  · rintro ⟨hlower, htake⟩
    obtain ⟨sep, r, hsep, hword⟩ := row.word_eq q htake hne
    rw [q.scans_iff, hword, append_le_append_left_iff, append_lt_append_left_iff, startWord, hlower]
    refine ⟨le_append [] _, ?_⟩
    rw [stopWord]
    cases hupper : q.upper with
    | none => exact (below_cons (hsep.trans (by decide : (48 : UInt8) < 71)) r []).lt
    | some bound =>
      obtain ⟨rest, hrest⟩ := q.boundWord_head (.inr hupper)
      show _ < q.boundWord bound.1 ++ _
      rw [hrest]
      exact (below_cons hsep r _).lt

theorem startWord_le_iff (r : Text) (hcolumn : columns[q.equalities.length]? = some column)
    (hfits : column.Fits value) (hnull : value ≠ .null) (hsep : sep < 48) :
    q.startWord ≤ componentOf column value ++ sep :: r ↔ withinLower q.lower value = true := by
  rw [IndexQuery.startWord]
  cases hlower : q.lower with
  | none => exact iff_of_true (le_append [] _) rfl
  | some bound =>
    obtain ⟨b, inclusive⟩ := bound
    obtain ⟨hb, hbnull, hword⟩ := q.keyComponent_bound (.inl hlower) hcolumn
    rw [keyComponent_of_fits hb, some.injEq] at hword
    have htri := component_trichotomy hfits hb
    cases inclusive with
    | true =>
      simp only [if_true, append_nil, withinLower, decide_eq_true_eq]
      rw [← hword, le_entry_iff r htri hsep, component_below_iff hfits hb, Ne,
        compare_eq_lt_iff hnull hbnull]
    | false =>
      simp only [if_false, withinLower, decide_eq_true_eq, Bool.false_eq_true]
      rw [← hword, behind_le_entry_iff r htri hsep, component_below_iff hb hfits,
        compare_eq_gt_iff hfits hb hnull hbnull]

theorem lt_stopWord_iff (r : Text) (hcolumn : columns[q.equalities.length]? = some column)
    (hfits : column.Fits value) (hnull : value ≠ .null) (hsep : sep < 48) :
    componentOf column value ++ sep :: r < q.stopWord ↔ withinUpper q.upper value = true := by
  rw [IndexQuery.stopWord]
  cases hupper : q.upper with
  | none =>
    obtain ⟨rest, hrest⟩ := component_head hfits
    rw [hrest]
    exact iff_of_true (below_cons (by decide : (48 : UInt8) < 71) _ []).lt rfl
  | some bound =>
    obtain ⟨b, inclusive⟩ := bound
    obtain ⟨hb, hbnull, hword⟩ := q.keyComponent_bound (.inr hupper) hcolumn
    rw [keyComponent_of_fits hb, some.injEq] at hword
    have htri := component_trichotomy hfits hb
    cases inclusive with
    | true =>
      simp only [if_true, withinUpper, decide_eq_true_eq]
      rw [← hword, entry_lt_behind_iff r htri hsep, component_below_iff hb hfits, Ne,
        compare_eq_gt_iff hfits hb hnull hbnull]
    | false =>
      simp only [if_false, append_nil, withinUpper, decide_eq_true_eq, Bool.false_eq_true]
      rw [← hword, entry_lt_iff r htri hsep, component_below_iff hfits hb,
        compare_eq_lt_iff hnull hbnull]

theorem IndexQuery.scans_of_first (indexId : Text) (hnil : q.equalities = [])
    (hnull : ∀ value ∈ row.next q, value ≠ .null) : q.Scans indexId row ↔ q.Matches row := by
  have hbegins : q.prefixWord = [] := by
    rw [prefixWord, hnil, componentsOf, zipWith_nil_right, joinText]
  have htake : row.key.take q.equalities.length = q.equalities := by rw [hnil]; rfl
  rw [q.scans_iff, hbegins, nil_append, nil_append, Matches]
  have hnext : row.next q = row.key[0]? := by rw [KeyRow.next, hnil]; rfl
  have hcolumns : columns[q.equalities.length]? = columns[0]? := by rw [hnil]; rfl
  rw [hnext] at hnull ⊢
  obtain ⟨key, htyped, hfull, pk⟩ := row
  cases key with
  | nil =>
    -- An index without key columns has no bounds.
    have hempty : columns = [] := length_eq_zero_iff.mp hfull.symm
    have hunbounded : ∀ bound, ¬ (bound ∈ q.lower ∨ bound ∈ q.upper) := by
      intro bound hbound
      obtain ⟨column, hcolumn, _⟩ := q.bounds_typed bound hbound
      rw [hcolumns, hempty] at hcolumn
      cases hcolumn
    have hlower : q.lower = none :=
      eq_none_iff_forall_not_mem.mpr fun bound h => hunbounded bound (.inl h)
    have hupper : q.upper = none :=
      eq_none_iff_forall_not_mem.mpr fun bound h => hunbounded bound (.inr h)
    rw [startWord, stopWord, hlower, hupper]
    refine iff_of_true ⟨le_append [] _, ?_⟩ ⟨htake, fun value h => by cases h⟩
    rw [KeyRow.word, componentsOf, zipWith_nil_right]
    exact (below_cons (by decide : (45 : UInt8) < 71) _ []).lt
  | cons value key =>
    cases columns with
    | nil => cases hfull
    | cons column columns =>
      have hfits : column.Fits value := htyped.cons.1
      have hvalue : value ≠ .null := hnull value rfl
      obtain ⟨sep, r, hsep, hword⟩ : ∃ sep r, sep < 48 ∧
          KeyRow.word ⟨value :: key, htyped, hfull, pk⟩ = componentOf column value ++ sep :: r := by
        rw [KeyRow.word, componentsOf, zipWith_cons_cons, joinText_cons]
        split
        · exact ⟨45, pk, by decide, by rw [append_nil]⟩
        · exact ⟨33, _, by decide, by rw [append_assoc]; rfl⟩
      rw [hword, startWord_le_iff r hcolumns hfits hvalue hsep,
        lt_stopWord_iff r hcolumns hfits hvalue hsep]
      constructor
      · rintro ⟨hlower, hupper⟩
        refine ⟨htake, ?_⟩
        rintro _ ⟨⟩
        exact ⟨hvalue, hlower, hupper⟩
      · rintro ⟨_, h⟩
        exact (h value rfl).2

/-- The entry is read if the row matches, and not read if it does not and its next value is
not NULL. -/
def IndexQuery.Exact (indexId : Text) (q : IndexQuery columns) (row : KeyRow columns) : Prop :=
  (q.Matches row → q.Scans indexId row) ∧
    ((∀ value ∈ row.next q, value ≠ .null) → ¬ q.Matches row → ¬ q.Scans indexId row)

/-- Behind equalities, a lower bound keeps no row and an upper bound keeps all rows. -/
def IndexQuery.Unaffected (q : IndexQuery columns) (rows : List (KeyRow columns)) : Prop :=
  q.equalities = [] ∨ ∀ row ∈ rows,
    (q.lower ≠ none → ¬ q.Matches row) ∧
      (q.lower = none → row.key.take q.equalities.length = q.equalities →
        ∀ value ∈ row.next q, value ≠ .null → withinUpper q.upper value = true)

theorem IndexQuery.exact_of_first (indexId : Text) (hnil : q.equalities = []) :
    q.Exact indexId row := by
  refine ⟨fun hmatches => ?_, fun hnull hmatches => ?_⟩
  · have hnull : ∀ value ∈ row.next q, value ≠ .null := fun value h => (hmatches.2 value h).1
    exact (scans_of_first indexId hnil hnull).mpr hmatches
  · rwa [scans_of_first indexId hnil hnull]

theorem IndexQuery.exact_iff_of_equalities (indexId : Text) (hne : q.equalities ≠ []) :
    q.Exact indexId row ↔
      (q.lower ≠ none → ¬ q.Matches row) ∧
        (q.lower = none → row.key.take q.equalities.length = q.equalities →
          ∀ value ∈ row.next q, value ≠ .null → withinUpper q.upper value = true) := by
  rw [Exact, scans_of_equalities indexId hne]
  constructor
  · rintro ⟨hread, hskipped⟩
    refine ⟨fun hlower hmatches => hlower (hread hmatches).1, fun hlower htake value hvalue hnull => ?_⟩
    have hall : ∀ v ∈ row.next q, v ≠ .null := by
      intro v hv
      cases hvalue.symm.trans hv
      exact hnull
    by_contra hupper
    exact hskipped hall (fun hmatches => hupper (hmatches.2 value hvalue).2.2) ⟨hlower, htake⟩
  · rintro ⟨hlower, hupper⟩
    refine ⟨fun hmatches => ⟨?_, hmatches.1⟩, fun hnull hmatches hscans => hmatches ?_⟩
    · by_contra h
      exact hlower h hmatches
    refine ⟨hscans.2, fun value hvalue => ⟨hnull value hvalue, ?_, ?_⟩⟩
    · rw [hscans.1]
      rfl
    · exact hupper hscans.1 hscans.2 value hvalue (hnull value hvalue)

end Rows

end Scan

end Query

/-- The entries that a scan reads are those of the matching rows, and the entries sort as
their keys, if and only if there are no equalities before the bounds or the bounds do not
matter. -/
theorem index_region_exact [Zones] [Primitives] {columns : List KeyColumn} (indexId : Text)
    (q : IndexQuery columns) (rows : List (KeyRow columns)) :
    (∀ row ∈ rows, q.Exact indexId row) ∧
        (∀ row ∈ rows, ∀ row' ∈ rows, tupleLt row.key row'.key →
          ∃ entry entry', row.entry indexId = some entry ∧ row'.entry indexId = some entry' ∧
            entry < entry') ↔
      q.Unaffected rows := by
  have hsorted : ∀ row row' : KeyRow columns, tupleLt row.key row'.key →
      ∃ entry entry', row.entry indexId = some entry ∧ row'.entry indexId = some entry' ∧
        entry < entry' := by
    intro row row' h
    refine ⟨_, _, row.entry_eq indexId, row'.entry_eq indexId, ?_⟩
    rw [append_lt_append_left_iff]
    exact (components_below row.typed row'.typed h).lt_append _ _
  rw [and_iff_left fun row _ row' _ => hsorted row row', IndexQuery.Unaffected]
  by_cases hnil : q.equalities = []
  · exact iff_of_true (fun row _ => IndexQuery.exact_of_first indexId hnil) (.inl hnil)
  rw [or_iff_right hnil]
  exact forall₂_congr fun row _ => IndexQuery.exact_iff_of_equalities indexId hnil

namespace Fixed

def pairColumns : List KeyColumn :=
  [⟨.int, ascii "INT", by simp⟩, ⟨.int, ascii "INT", by simp⟩]

/-- The row `(1, 5)`. -/
def oneFive : KeyRow pairColumns where
  key := [.int 1, .int 5]
  typed := List.Forall₂.cons ⟨rfl, by decide⟩ (.cons ⟨rfl, by decide⟩ .nil)
  full := rfl
  pk := ascii "7"

/-- `a = 1 AND b >= 5`. -/
def oneAtLeastFive : IndexQuery pairColumns where
  equalities := [.int 1]
  typed := List.Forall₂.cons ⟨rfl, by decide⟩ .nil
  length_le := by decide
  lower := some (.int 5, true)
  upper := none
  bounds_typed := by
    rintro bound (h | h)
    · cases h
      exact ⟨_, rfl, ⟨rfl, by decide⟩, by simp⟩
    · cases h

@[reducible] def zones : Zones := ⟨fun _ => none, id⟩

end Fixed

/-- The row `(1, 5)` matches `a = 1 AND b >= 5`, and its entry is not read. -/
theorem region_skips_match :
    letI := Fixed.zones
    letI := Fixed.evaluator fun _ => none
    Fixed.oneAtLeastFive.Matches Fixed.oneFive ∧
      ¬ Fixed.oneAtLeastFive.Scans (ascii "1") Fixed.oneFive := by
  let := Fixed.zones
  let := Fixed.evaluator fun _ => none
  refine ⟨⟨rfl, ?_⟩, ?_⟩
  · rintro value ⟨⟩
    exact ⟨by simp, rfl, rfl⟩
  rw [IndexQuery.scans_of_equalities (ascii "1") (by simp [Fixed.oneAtLeastFive])]
  rintro ⟨hlower, _⟩
  cases hlower

end NodusDb.Sql
