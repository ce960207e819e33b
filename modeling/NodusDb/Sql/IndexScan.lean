import NodusDb.Lib.Overlay
import NodusDb.Sql.IndexRegion

/-!
# Index scans and the session's own rows

A scan of an index finds committed rows by the keys of their entries. The rows the session has
written or deleted and not committed are merged into what was found.

* `index_scan_sees_own_writes`: when the result of an equality scan is that of the full scan, in
  terms of the keys of the entries, and what these are where all rows are encoded.
-/

namespace NodusDb.Sql

open List OrdMap

/-- What the session has written: `none` is a deleted row. -/
abbrev RowOverlay := OrdMap Text (Option Row)

/-! ## Entries -/

structure TableIndex where
  indexId : Text
  /-- The types of the key columns that are encoded. -/
  types : List Text
  /-- Whether the entries are in the order of the values. -/
  ordered : Bool
  /-- The positions of the key columns, at least one. -/
  positions : List Nat
  nonempty : positions ≠ []

def TableIndex.leading (idx : TableIndex) : Nat := idx.positions.head idx.nonempty

def TableIndex.keyValues (idx : TableIndex) (row : Row) : List Value :=
  idx.positions.map (cell row)

/-- `value.replace('\\', "\\\\").replace(':', "\\:")`. -/
def escapeIndexValue (text : Text) : Text :=
  (text.flatMap fun c => if c = 92 then [92, 92] else [c]).flatMap fun c =>
    if c = 58 then [92, 58] else [c]

section Entries

variable [Zones] [Primitives]

/-- The text of a value in an index that does not keep the order. -/
def legacyText (value : Value) : Text := escapeIndexValue (render (keyForm value))

def legacyKey (indexId : Text) (value : Value) (pk : Text) : Text :=
  indexBase indexId ++ legacyText value ++ ascii ":" ++ pk

def TableIndex.entryKey (idx : TableIndex) (pk : Text) (row : Row) : Text :=
  let legacy := legacyKey idx.indexId (cell row idx.leading) pk
  if idx.ordered then (indexKeyFor idx.indexId pk idx.types (idx.keyValues row)).getD legacy
  else legacy

/-- The committed rows by their keys, and the entries of an index in their order. -/
structure IndexedTable (idx : TableIndex) where
  rows : OrdMap Text Row
  entries : List Text
  sorted : entries.Pairwise (· < ·)
  consistent : ∀ key, key ∈ entries ↔ ∃ pk row, rows.get? pk = some row ∧ idx.entryKey pk row = key

/-- In an index in order, all rows have an encoded key: none falls back to the legacy one. -/
def IndexedTable.Encoded {idx : TableIndex} (table : IndexedTable idx) : Prop :=
  idx.ordered = true → idx.types ≠ [] ∧ ∀ pk row, table.rows.get? pk = some row →
    (keyComponents idx.types (idx.keyValues row)).isSome = true

/-! ## Scans -/

def stripPrefix (start text : Text) : Option Text :=
  if start.isPrefixOf text then some (text.drop start.length) else none

/-- The keys of the entries between two keys. -/
def IndexedTable.between {idx : TableIndex} (table : IndexedTable idx) (start stop : Text) :
    List Text :=
  table.entries.filter fun key => start ≤ key ∧ key < stop

/-- The rows that the keys of entries point at. -/
def IndexedTable.fetch {idx : TableIndex} (table : IndexedTable idx)
    (pkOf : Text → Option Text) (keys : List Text) : List (Text × Row) :=
  keys.filterMap fun key => do
    let pk ← pkOf key
    let row ← table.rows.get? pk
    some (pk, row)

/-- The key of the row in the key of an entry: behind the first `-`. -/
def tailPk (indexId key : Text) : Option Text :=
  (stripPrefix (indexBase indexId) key).bind fun tail => (splitOnce 45 tail).map (·.2)

/-- `index_scan`: the committed rows that the index has under a value. -/
def IndexedTable.indexScan {idx : TableIndex} (table : IndexedTable idx) (value : Value) :
    List (Text × Row) :=
  let hex := if idx.ordered then idx.types.head?.bind (keyComponent value) else none
  match hex.bind fun hex => indexPrefixRegion idx.indexId hex none with
  | some (start, stop) => table.fetch (tailPk idx.indexId) (table.between start stop)
  | none =>
    let start := indexBase idx.indexId ++ legacyText value
    table.fetch (stripPrefix (start ++ ascii ":"))
      (table.between (start ++ ascii ":") (start ++ ascii ";"))

/-- The key of the row that a scan for a value takes from the key of an entry. -/
def TableIndex.reads (idx : TableIndex) (value : Value) (key : Text) : Option Text :=
  let hex := if idx.ordered then idx.types.head?.bind (keyComponent value) else none
  match hex.bind fun hex => indexPrefixRegion idx.indexId hex none with
  | some (start, stop) => if start ≤ key ∧ key < stop then tailPk idx.indexId key else none
  | none =>
    let start := indexBase idx.indexId ++ legacyText value
    if start ++ ascii ":" ≤ key ∧ key < start ++ ascii ";" then
      stripPrefix (start ++ ascii ":") key
    else none

/-- The entry of some row is read, and the key of this row is taken from it. -/
def IndexedTable.Names {idx : TableIndex} (table : IndexedTable idx) (value : Value) (pk : Text) :
    Prop :=
  ∃ pk' row', table.rows.get? pk' = some row' ∧ idx.reads value (idx.entryKey pk' row') = some pk

/-- `merge_overlay_by`: the session's rows replace the committed ones. -/
def mergeOverlayBy (committed : List (Text × Row)) (overlay : RowOverlay) (test : Row → Bool) :
    OrdMap Text Row :=
  OrdMap.overlay (Option.filter test) overlay (OrdMap.ofList committed)

def mergeOverlayEq (committed : List (Text × Row)) (overlay : RowOverlay) (position : Nat)
    (value : Value) : List Row :=
  (mergeOverlayBy committed overlay fun row =>
    row[position]?.any fun cell => compare cell value = .eq).values

/-- `scan_rows_keyed`: all rows that the session sees. -/
def scanRowsKeyed (rows : OrdMap Text Row) (overlay : RowOverlay) : OrdMap Text Row :=
  OrdMap.overlay id overlay rows

end Entries

/-! ## Letters of keys -/

def HexLetter (c : UInt8) : Prop := (48 ≤ c ∧ c ≤ 57) ∨ (65 ≤ c ∧ c ≤ 70)

instance (c : UInt8) : Decidable (HexLetter c) := inferInstanceAs (Decidable (_ ∨ _))

theorem hexLetter_hexDigit (h : d < 16) : HexLetter (hexDigit 65 d) := by
  have hall : ∀ n : Fin 16, HexLetter (hexDigit 65 (UInt8.ofNat n)) := by decide
  have hletter := hall ⟨d.toNat, UInt8.lt_iff_toNat_lt.mp h⟩
  rwa [UInt8.ofNat_toNat] at hletter

variable {c : UInt8}

theorem hexLetter_of_mem_hexText (h : c ∈ hexText 65 bytes) : HexLetter c := by
  obtain ⟨b, _, hb⟩ := mem_flatMap.mp h
  simp only [mem_cons, not_mem_nil, or_false] at hb
  rcases hb with rfl | rfl
  · exact hexLetter_hexDigit (high_digit_lt b)
  · exact hexLetter_hexDigit (low_digit_lt b)

theorem HexLetter.lt (h : HexLetter c) : c < 71 := by
  rcases h with h | h
  all_goals exact UInt8.lt_of_le_of_lt h.2 (by decide)

section Keys

variable [Zones]

theorem hexLetter_of_mem_component (h : keyComponent value dataType = some hex) (hc : c ∈ hex) :
    HexLetter c := by
  obtain ⟨bytes, _, rfl⟩ := Option.map_eq_some_iff.mp h
  exact hexLetter_of_mem_hexText hc

theorem hexLetter_of_mem_components (h : keyComponents types key = some components)
    (hhex : hex ∈ components) (hc : c ∈ hex) : HexLetter c := by
  induction types generalizing key components with
  | nil =>
    rw [keyComponents] at h
    cases h
    cases hhex
  | cons dataType types ih =>
    cases key with
    | nil => cases h
    | cons value key =>
      rw [keyComponents] at h
      obtain ⟨first, hfirst, h⟩ := Option.bind_eq_some_iff.mp h
      obtain ⟨rest, hrest, h⟩ := Option.bind_eq_some_iff.mp h
      cases h
      rcases mem_cons.mp hhex with rfl | hhex
      · exact hexLetter_of_mem_component hfirst hc
      · exact ih hrest hhex

end Keys

theorem mem_joinText (h : c ∈ joinText sep words) :
    c ∈ sep ∨ ∃ word ∈ words, c ∈ word := by
  induction words with
  | nil => cases h
  | cons word words ih =>
    rw [joinText_cons, mem_append] at h
    rcases h with h | h
    · exact .inr ⟨word, mem_cons_self, h⟩
    split at h
    · cases h
    rcases mem_append.mp h with h | h
    · exact .inl h
    rcases ih h with h | ⟨w, hw, hc⟩
    · exact .inl h
    · exact .inr ⟨w, mem_cons_of_mem _ hw, hc⟩

theorem components_letter [Zones] (h : indexKeyComponents types key = some hex) (hc : c ∈ hex) :
    HexLetter c ∨ c = 33 := by
  obtain ⟨components, hcomponents, rfl⟩ := Option.map_eq_some_iff.mp h
  rcases mem_joinText hc with hc | ⟨word, hword, hc⟩
  · exact .inr (mem_singleton.mp hc)
  · exact .inl (hexLetter_of_mem_components hcomponents hword hc)

/-! ## Escaped texts -/

def escapeChar (c : UInt8) : Text := if c = 92 then [92, 92] else if c = 58 then [92, 58] else [c]

theorem escapeIndexValue_cons (c : UInt8) (text : Text) :
    escapeIndexValue (c :: text) = escapeChar c ++ escapeIndexValue text := by
  unfold escapeIndexValue escapeChar
  rw [flatMap_cons, flatMap_append]
  congr 1
  by_cases h : c = 92
  · rw [if_pos h, if_pos h]
    rfl
  · rw [if_neg h, if_neg h, flatMap_singleton]

/-- The character that an escaped text begins with, and the rest. -/
def readEscaped : Text → Option (UInt8 × Text)
  | 92 :: c :: rest => some (c, rest)
  | c :: rest => some (c, rest)
  | [] => none

theorem readEscaped_escapeChar (c : UInt8) (u : Text) :
    readEscaped (escapeChar c ++ u) = some (c, u) := by
  unfold escapeChar
  split
  next h => subst h; rfl
  next h =>
  split
  next h => subst h; rfl
  rw [singleton_append, readEscaped]
  rintro c' rest ⟨⟩
  exact absurd rfl h

theorem escapeChar_append (h : escapeChar c ++ u = escapeChar d ++ v) :
    c = d ∧ u = v := by
  have hread := congrArg readEscaped h
  rw [readEscaped_escapeChar, readEscaped_escapeChar] at hread
  cases hread
  exact ⟨rfl, rfl⟩

theorem head_escapeChar (c : UInt8) : ∃ b rest, escapeChar c = b :: rest ∧ b ≠ 58 := by
  unfold escapeChar
  split
  · exact ⟨92, [92], rfl, by decide⟩
  split
  · exact ⟨92, [58], rfl, by decide⟩
  next h => exact ⟨c, [], rfl, h⟩

theorem escapeIndexValue_append
    (h : escapeIndexValue s ++ 58 :: x = escapeIndexValue t ++ 58 :: y) : s = t ∧ x = y := by
  induction s generalizing t with
  | nil =>
    cases t with
    | nil => exact ⟨rfl, (cons.inj h).2⟩
    | cons d t =>
      obtain ⟨b, rest, hb, hne⟩ := head_escapeChar d
      rw [escapeIndexValue_cons, hb] at h
      exact absurd (cons.inj h).1.symm hne
  | cons c s ih =>
    cases t with
    | nil =>
      obtain ⟨b, rest, hb, hne⟩ := head_escapeChar c
      rw [escapeIndexValue_cons, hb] at h
      exact absurd (cons.inj h).1 hne
    | cons d t =>
      rw [escapeIndexValue_cons, escapeIndexValue_cons, append_assoc, append_assoc] at h
      obtain ⟨rfl, hrest⟩ := escapeChar_append h
      obtain ⟨rfl, rfl⟩ := ih hrest
      exact ⟨rfl, rfl⟩

/-! ## What a scan finds -/

def isScalar : Value → Bool
  | .null | .int _ | .float _ | .numeric _ | .bool _ | .text _ => true
  | _ => false

theorem prefix_append_iff (h : sep ∉ hex) :
    hex <+: key ++ sep :: r ↔ hex <+: key := by
  refine ⟨fun hbegins => ?_, fun hbegins => hbegins.trans (prefix_append _ _)⟩
  by_cases hlength : hex.length ≤ key.length
  · exact prefix_of_prefix_length_le hbegins (prefix_append _ _) hlength
  have hsep : key ++ [sep] <+: hex := by
    refine prefix_of_prefix_length_le ?_ hbegins ?_
    · exact ⟨r, by rw [append_assoc, singleton_append]⟩
    · rw [length_append, length_singleton]
      omega
  exact absurd (hsep.subset (mem_append_right _ mem_cons_self)) h

theorem stripPrefix_append (start text : Text) : stripPrefix start (start ++ text) = some text := by
  rw [stripPrefix, if_pos (List.isPrefixOf_iff_prefix.mpr (prefix_append _ _)), drop_left]

theorem stripPrefix_eq_some (h : stripPrefix start text = some rest) :
    text = start ++ rest := by
  unfold stripPrefix at h
  split at h
  next hbegins =>
    cases h
    obtain ⟨rest, rfl⟩ := isPrefixOf_iff_prefix.mp hbegins
    rw [drop_left]
  · cases h

section Scan

variable [Zones] [Primitives] {idx : TableIndex} (table : IndexedTable idx)

variable {pk key : Text} {row : Row}

theorem mem_fetch {pkOf : Text → Option Text} {keys : List Text} :
    (pk, row) ∈ table.fetch pkOf keys ↔
      (∃ key ∈ keys, pkOf key = some pk) ∧ table.rows.get? pk = some row := by
  rw [IndexedTable.fetch, mem_filterMap]
  constructor
  · rintro ⟨key, hkey, h⟩
    obtain ⟨pk', hpk, h⟩ := Option.bind_eq_some_iff.mp h
    obtain ⟨row', hrow, h⟩ := Option.bind_eq_some_iff.mp h
    cases h
    exact ⟨⟨key, hkey, hpk⟩, hrow⟩
  · rintro ⟨⟨key, hkey, hpk⟩, hrow⟩
    refine ⟨key, hkey, ?_⟩
    rw [hpk, Option.bind_eq_bind, Option.bind_some, hrow]
    rfl

theorem mem_between :
    key ∈ table.between start stop ↔
      (∃ pk row, table.rows.get? pk = some row ∧ idx.entryKey pk row = key) ∧
        start ≤ key ∧ key < stop := by
  rw [IndexedTable.between, mem_filter, table.consistent, decide_eq_true_eq]

theorem mem_fetch_between :
    (pk, row) ∈ table.fetch pkOf (table.between start stop) ↔ table.rows.get? pk = some row ∧
      ∃ pk' row', table.rows.get? pk' = some row' ∧
        (if start ≤ idx.entryKey pk' row' ∧ idx.entryKey pk' row' < stop then
          pkOf (idx.entryKey pk' row') else none) = some pk := by
  rw [mem_fetch, and_comm]
  refine and_congr_right fun _ => ?_
  constructor
  · rintro ⟨key, hkey, hpk⟩
    obtain ⟨⟨pk', row', hrow', rfl⟩, hbetween⟩ := (mem_between table).mp hkey
    exact ⟨pk', row', hrow', by rwa [if_pos hbetween]⟩
  · rintro ⟨pk', row', hrow', hpk⟩
    split at hpk
    next hbetween => exact ⟨_, (mem_between table).mpr ⟨⟨pk', row', hrow', rfl⟩, hbetween⟩, hpk⟩
    · cases hpk

theorem mem_indexScan {value : Value} :
    (pk, row) ∈ table.indexScan value ↔
      table.rows.get? pk = some row ∧ table.Names value pk := by
  unfold IndexedTable.indexScan IndexedTable.Names TableIndex.reads
  dsimp only
  generalize Option.bind (if idx.ordered then idx.types.head?.bind (keyComponent value) else none)
    (fun hex => indexPrefixRegion idx.indexId hex none) = region
  cases region with
  | none => exact mem_fetch_between table
  | some region => exact mem_fetch_between table

variable {table}

theorem IndexedTable.Encoded.entryKey (hencoded : table.Encoded) (hordered : idx.ordered = true)
    (h : table.rows.get? pk = some row) :
    ∃ hex, indexKeyComponents idx.types (idx.keyValues row) = some hex ∧
      idx.entryKey pk row = indexBase idx.indexId ++ (hex ++ 45 :: pk) := by
  obtain ⟨components, hcomponents⟩ :=
    Option.isSome_iff_exists.mp ((hencoded hordered).2 pk row h)
  have hhex : indexKeyComponents idx.types (idx.keyValues row) =
      some (joinText (ascii "!") components) := by
    rw [indexKeyComponents, hcomponents, Option.map_some]
  refine ⟨_, hhex, ?_⟩
  rw [TableIndex.entryKey, if_pos hordered, indexKeyFor, hhex, Option.map_some, Option.getD_some,
    append_assoc, append_assoc]
  rfl

omit [Primitives] in
theorem entry_between_iff {indexId hex : Text} {types : List Text} {values : List Value}
    (hhex : ∀ c ∈ hex, HexLetter c) (hkey : indexKeyComponents types values = some key) :
    indexBase indexId ++ hex ≤ indexBase indexId ++ (key ++ 45 :: pk) ∧
        indexBase indexId ++ (key ++ 45 :: pk) < indexBase indexId ++ hex ++ ascii "G" ↔
      hex <+: key := by
  have hsep : (45 : UInt8) ∉ hex := fun h => absurd (hhex 45 h) (by decide)
  rw [append_assoc, append_le_append_left_iff, append_lt_append_left_iff]
  refine (between_iff (a := 71)).trans ?_
  constructor
  · rintro ⟨s, hs, _⟩
    exact (prefix_append_iff hsep).mp ⟨s, hs.symm⟩
  · rintro ⟨s, rfl⟩
    refine ⟨s ++ 45 :: pk, by rw [append_assoc], lt_singleton_iff.mpr fun c hc => ?_⟩
    have hmem : c ∈ s ∨ c = 45 := by
      cases s with
      | nil => exact .inr (Option.some.inj hc).symm
      | cons b s => exact .inl (Option.some.inj hc ▸ mem_cons_self)
    rcases hmem with hmem | rfl
    · rcases components_letter hkey (mem_append_right _ hmem) with h | rfl
      · exact h.lt
      · decide
    · decide

omit [Primitives] in
theorem tailPk_entry {indexId : Text} {types : List Text} {values : List Value}
    (hkey : indexKeyComponents types values = some key) :
    tailPk indexId (indexBase indexId ++ (key ++ 45 :: pk)) = some pk := by
  have hsep : (45 : UInt8) ∉ key := by
    intro h
    rcases components_letter hkey h with h | h
    all_goals exact absurd h (by decide)
  rw [tailPk, stripPrefix_append, Option.bind_some, splitOnce_append _ hsep, Option.map_some]

/-- The encoding of the value is that of the row's first key column: the key of the entry begins
with it. Without an order the texts of the values are the same. -/
def TableIndex.SameKey (idx : TableIndex) (value : Value) (row : Row) : Prop :=
  if idx.ordered then
    ∃ hex key, idx.types.head?.bind (keyComponent value) = some hex ∧
      indexKeyComponents idx.types (idx.keyValues row) = some key ∧ hex <+: key
  else render (keyForm value) = render (keyForm (cell row idx.leading))

theorem mem_indexScan_encoded (hencoded : table.Encoded) (hordered : idx.ordered = true)
    (hhex : idx.types.head?.bind (keyComponent value) = some hex) :
    (pk, row) ∈ table.indexScan value ↔
      table.rows.get? pk = some row ∧ idx.SameKey value row := by
  have hletters : ∀ c ∈ hex, HexLetter c := by
    obtain ⟨dataType, _, h⟩ := Option.bind_eq_some_iff.mp hhex
    exact fun c hc => hexLetter_of_mem_component h hc
  have hscan : table.indexScan value = table.fetch (tailPk idx.indexId)
      (table.between (indexBase idx.indexId ++ hex) (indexBase idx.indexId ++ hex ++ ascii "G")) := by
    rw [IndexedTable.indexScan, if_pos hordered, hhex]
    rfl
  rw [hscan, mem_fetch, and_comm, TableIndex.SameKey, if_pos hordered]
  refine and_congr_right fun hrow => ?_
  obtain ⟨key, hkey, hentry⟩ := hencoded.entryKey hordered hrow
  constructor
  · rintro ⟨entry, hmem, hpk⟩
    obtain ⟨⟨pk', row', hrow', rfl⟩, hbetween⟩ := (mem_between table).mp hmem
    obtain ⟨key', hkey', hentry'⟩ := hencoded.entryKey hordered hrow'
    rw [hentry', tailPk_entry hkey', Option.some.injEq] at hpk
    subst hpk
    cases hrow.symm.trans hrow'
    rw [hentry', entry_between_iff hletters hkey'] at hbetween
    exact ⟨hex, key', hhex, hkey', hbetween⟩
  · rintro ⟨hex', key', hhex', hkey', hbegins⟩
    cases hhex.symm.trans hhex'
    cases hkey.symm.trans hkey'
    refine ⟨idx.entryKey pk row, (mem_between table).mpr ⟨⟨pk, row, hrow, rfl⟩, ?_⟩, ?_⟩
    · rw [hentry]
      exact (entry_between_iff hletters hkey).mpr hbegins
    · rw [hentry, tailPk_entry hkey]

theorem mem_indexScan_legacy (hordered : idx.ordered = false) :
    (pk, row) ∈ table.indexScan value ↔
      table.rows.get? pk = some row ∧ idx.SameKey value row := by
  have hbool : ¬ idx.ordered = true := by rw [hordered]; decide
  have hentry : ∀ pk row, idx.entryKey pk row =
      indexBase idx.indexId ++ (legacyText (cell row idx.leading) ++ 58 :: pk) := by
    intro pk row
    rw [TableIndex.entryKey, if_neg hbool, legacyKey, append_assoc, append_assoc]
    rfl
  have hscan : table.indexScan value = table.fetch
      (stripPrefix (indexBase idx.indexId ++ legacyText value ++ ascii ":"))
      (table.between (indexBase idx.indexId ++ legacyText value ++ ascii ":")
        (indexBase idx.indexId ++ legacyText value ++ ascii ";")) := by
    rw [IndexedTable.indexScan, if_neg hbool]
    rfl
  have hstart : ∀ pk, indexBase idx.indexId ++ legacyText value ++ ascii ":" ++ pk =
      indexBase idx.indexId ++ (legacyText value ++ 58 :: pk) := by
    intro pk
    rw [append_assoc, append_assoc]
    rfl
  rw [hscan, mem_fetch, and_comm, TableIndex.SameKey, if_neg hbool]
  refine and_congr_right fun hrow => ?_
  constructor
  · rintro ⟨entry, hmem, hpk⟩
    obtain ⟨⟨pk', row', hrow', rfl⟩, _⟩ := (mem_between table).mp hmem
    have heq := stripPrefix_eq_some hpk
    rw [hentry, hstart, append_cancel_left_eq] at heq
    obtain ⟨htext, rfl⟩ := escapeIndexValue_append heq
    cases hrow.symm.trans hrow'
    exact htext.symm
  · intro htext
    have hkey : idx.entryKey pk row =
        indexBase idx.indexId ++ legacyText value ++ ascii ":" ++ pk := by
      rw [hentry, hstart, legacyText, legacyText, htext]
    refine ⟨idx.entryKey pk row, (mem_between table).mpr ⟨⟨pk, row, hrow, rfl⟩, ?_⟩, ?_⟩
    · rw [hkey]
      refine ⟨le_append _ _, ?_⟩
      rw [append_assoc _ (ascii ":") pk, append_lt_append_left_iff]
      exact (below_cons (by decide : (58 : UInt8) < 59) pk []).lt
    · rw [hkey, stripPrefix_append]

end Scan

/-! ## Numerics in an index in order -/

theorem numeric_text_head (d : Numeric) :
    (∃ rest, d.toText = 48 :: 46 :: rest) ∨ d.toText = [48] ∨
      ∃ c rest, d.toText = c :: rest ∧ c ≠ 48 ∧ c ≠ 92 ∧ c ≠ 58 := by
  cases d with
  | nan => exact .inr (.inr ⟨78, _, rfl, by decide⟩)
  | infinity => exact .inr (.inr ⟨73, _, rfl, by decide⟩)
  | negInfinity => exact .inr (.inr ⟨45, _, rfl, by decide⟩)
  | finite digits scale =>
    rw [Numeric.toText]
    by_cases hneg : digits < 0
    · rw [if_pos hneg]
      exact .inr (.inr ⟨45, _, rfl, by decide⟩)
    rw [if_neg hneg, nil_append]
    have hdigit : ∀ d : Nat, d ≠ 0 → d < 10 →
        UInt8.ofNat (48 + d) ≠ 48 ∧ UInt8.ofNat (48 + d) ≠ 92 ∧ UInt8.ofNat (48 + d) ≠ 58 := by
      intro d h0 h10
      have hall : ∀ d : Fin 10, d.val ≠ 0 → UInt8.ofNat (48 + d) ≠ 48 ∧
          UInt8.ofNat (48 + d) ≠ 92 ∧ UInt8.ofNat (48 + d) ≠ 58 := by decide
      exact hall ⟨d, h10⟩ h0
    by_cases hzero : digits.natAbs = 0
    · rw [hzero]
      by_cases hscale : scale = 0
      · rw [if_pos hscale]
        exact .inr (.inl rfl)
      · rw [if_neg hscale, if_neg (by rw [show (jsonNumber 0).length = 1 from rfl]; omega)]
        exact .inl ⟨_, rfl⟩
    obtain ⟨d, rest, hd, h0, h10⟩ := head_jsonNumber hzero
    split
    · exact .inr (.inr ⟨_, rest, hd, hdigit d h0 h10⟩)
    split
    next hlt =>
      obtain ⟨k, hk⟩ : ∃ k, (jsonNumber digits.natAbs).length - scale = k + 1 :=
        ⟨(jsonNumber digits.natAbs).length - scale - 1, by omega⟩
      refine .inr (.inr ⟨UInt8.ofNat (48 + d), rest.take k ++ ascii "." ++ rest.drop k, ?_,
        hdigit d h0 h10⟩)
      rw [hk, hd, take_succ_cons, drop_succ_cons, cons_append, cons_append]
    · exact .inl ⟨_, rfl⟩

section Numerics

variable [Zones]

theorem components_head {types : List Text} {values : List Value} {key : Text}
    (htypes : types ≠ []) (h : indexKeyComponents types values = some key) :
    ∃ b rest, key = 48 :: b :: rest ∧ (b = 49 ∨ b = 50) := by
  obtain ⟨components, hcomponents, rfl⟩ := Option.map_eq_some_iff.mp h
  cases types with
  | nil => exact absurd rfl htypes
  | cons dataType types =>
    cases values with
    | nil => cases hcomponents
    | cons value values =>
      rw [keyComponents] at hcomponents
      obtain ⟨first, hfirst, hrest⟩ := Option.bind_eq_some_iff.mp hcomponents
      obtain ⟨others, _, heq⟩ := Option.bind_eq_some_iff.mp hrest
      cases heq
      obtain ⟨bytes, hbytes, rfl⟩ := Option.map_eq_some_iff.mp hfirst
      rw [joinText_cons]
      unfold keyBytes at hbytes
      split at hbytes <;> cases hbytes
      · exact ⟨50, _, rfl, .inr rfl⟩
      all_goals exact ⟨49, _, rfl, .inl rfl⟩

theorem numeric_not_key {types : List Text} {values : List Value} {key : Text} (d : Numeric)
    (htypes : types ≠ []) (h : indexKeyComponents types values = some key) (x y : Text) :
    key ++ x ≠ escapeIndexValue d.toText ++ 58 :: y := by
  obtain ⟨b, rest, rfl, hb⟩ := components_head htypes h
  have hescape : ∀ c text, c ≠ 92 → c ≠ 58 →
      escapeIndexValue (c :: text) = c :: escapeIndexValue text := by
    intro c text h92 h58
    rw [escapeIndexValue_cons, escapeChar, if_neg h92, if_neg h58, singleton_append]
  rcases numeric_text_head d with ⟨text, ht⟩ | ht | ⟨c, text, ht, h48, h92, h58⟩
  · rw [ht, hescape 48 _ (by decide) (by decide), hescape 46 _ (by decide) (by decide)]
    intro heq
    simp only [cons_append, cons.injEq, true_and] at heq
    rcases hb with rfl | rfl
    all_goals exact absurd heq.1 (by decide)
  · rw [ht]
    intro heq
    have heq' : 48 :: b :: (rest ++ x) = 48 :: 58 :: y := heq
    simp only [cons.injEq, true_and] at heq'
    rcases hb with rfl | rfl
    all_goals exact absurd heq'.1 (by decide)
  · rw [ht, hescape c _ h92 h58]
    intro heq
    exact h48 (cons.inj heq).1.symm

end Numerics

theorem get?_seen (rows : OrdMap Text Row) (overlay : RowOverlay) (test : Row → Bool) (pk : Text)
    (row : Row) :
    ((scanRowsKeyed rows overlay).filter fun _ r => test r).get? pk = some row ↔
      (∃ own, overlay.get? pk = some own ∧ own.filter test = some row) ∨
        (overlay.get? pk = none ∧ rows.get? pk = some row ∧ test row = true) := by
  rw [get?_filter, scanRowsKeyed, get?_overlay]
  cases hown : overlay.get? pk with
  | some own | none => simp [Option.filter_eq_some_iff]

/-- The session's rows, and those of the committed ones that were found and are not replaced. -/
theorem get?_mergeOverlayBy {rows : OrdMap Text Row} {committed : List (Text × Row)}
    {found : Text → Row → Prop} (hmem : ∀ pk row, (pk, row) ∈ committed ↔ found pk row)
    (hfound : ∀ pk row, found pk row → rows.get? pk = some row) (overlay : RowOverlay)
    (test : Row → Bool) (pk : Text) (row : Row) :
    (mergeOverlayBy committed overlay test).get? pk = some row ↔
      (∃ own, overlay.get? pk = some own ∧ own.filter test = some row) ∨
        (overlay.get? pk = none ∧ found pk row) := by
  rw [mergeOverlayBy, get?_overlay]
  cases hown : overlay.get? pk with
  | some own => simp
  | none =>
    have hkeys : pk ∈ committed.map (·.1) ↔ ∃ row, found pk row := by
      rw [mem_map]
      constructor
      · rintro ⟨⟨_, row⟩, he, rfl⟩
        exact ⟨row, (hmem _ row).mp he⟩
      · rintro ⟨row, h⟩
        exact ⟨(pk, row), (hmem pk row).mpr h, rfl⟩
    have hown' : ¬ ∃ own, (none : Option (Option Row)) = some own ∧ own.filter test = some row := by
      rintro ⟨_, h, _⟩
      cases h
    rw [or_iff_right hown', and_iff_right rfl]
    show (ofList committed).get? pk = some row ↔ _
    rw [get?_ofList fun e he => hfound e.1 e.2 ((hmem e.1 e.2).mp he)]
    by_cases hin : pk ∈ committed.map (·.1)
    · rw [if_pos hin]
      obtain ⟨row', hrow'⟩ := hkeys.mp hin
      refine ⟨fun hrow => ?_, hfound pk row⟩
      cases hrow.symm.trans (hfound pk row' hrow')
      exact hrow'
    · rw [if_neg hin]
      exact iff_of_false (by simp) fun h => hin (hkeys.mpr ⟨row, h⟩)

section Merge

variable [Zones] [Primitives] {idx : TableIndex} {table : IndexedTable idx}

omit [Primitives] in
theorem keyComponent_of_scalar (h : isScalar value = true) (dataType : Text) :
    (∃ hex, keyComponent value dataType = some hex) ∨ ∃ d, value = .numeric d := by
  cases value with
  | numeric d => exact .inr ⟨d, rfl⟩
  | null | int n | float bits | bool b | text s => exact .inl ⟨_, rfl⟩
  | _ => cases h

theorem mem_indexScan_of_encoded (hencoded : table.Encoded)
    (hscalar : idx.ordered = true → isScalar value = true) :
    (pk, row) ∈ table.indexScan value ↔
      table.rows.get? pk = some row ∧ idx.SameKey value row := by
  cases hordered : idx.ordered with
  | false => exact mem_indexScan_legacy hordered
  | true =>
    obtain ⟨dataType, types, htypes⟩ := exists_cons_of_ne_nil (hencoded hordered).1
    rcases keyComponent_of_scalar (hscalar hordered) dataType with ⟨hex, hhex⟩ | ⟨d, hd⟩
    · have hfirst : idx.types.head?.bind (keyComponent value) = some hex := by
        rw [htypes, head?_cons, Option.bind_some, hhex]
      exact mem_indexScan_encoded hencoded hordered hfirst
    -- A numeric has no encoding, and no entry begins with its text.
    have hnone : idx.types.head?.bind (keyComponent value) = none := by
      rw [htypes, hd]
      rfl
    refine iff_of_false (fun hmem => ?_) ?_
    · have hscan : table.indexScan value = table.fetch
          (stripPrefix (indexBase idx.indexId ++ legacyText value ++ ascii ":"))
          (table.between (indexBase idx.indexId ++ legacyText value ++ ascii ":")
            (indexBase idx.indexId ++ legacyText value ++ ascii ";")) := by
        rw [IndexedTable.indexScan, if_pos hordered, hnone]
        rfl
      rw [hscan, mem_fetch] at hmem
      obtain ⟨⟨entry, hentry, hpk⟩, _⟩ := hmem
      obtain ⟨⟨pk', row', hrow', rfl⟩, _⟩ := (mem_between table).mp hentry
      obtain ⟨key, hkey, heq⟩ := hencoded.entryKey hordered hrow'
      have hstrip := stripPrefix_eq_some hpk
      rw [heq, append_assoc, append_assoc, append_cancel_left_eq, hd] at hstrip
      exact numeric_not_key d.normalize (hencoded hordered).1 hkey _ _ hstrip
    · rw [TableIndex.SameKey, if_pos hordered, hnone]
      rintro ⟨_, ⟨_, _, h, _⟩⟩
      cases h

def keyEquals (idx : TableIndex) (value : Value) (row : Row) : Bool :=
  row[idx.leading]?.any fun cell => compare cell value = .eq

variable (table) in
theorem get?_merged (value : Value) (overlay : RowOverlay) (test : Row → Bool) (pk : Text)
    (row : Row) :
    (mergeOverlayBy (table.indexScan value) overlay test).get? pk = some row ↔
      (∃ own, overlay.get? pk = some own ∧ own.filter test = some row) ∨
        (overlay.get? pk = none ∧ table.rows.get? pk = some row ∧ table.Names value pk) :=
  get?_mergeOverlayBy (fun _ _ => mem_indexScan table) (fun _ _ h => h.1) overlay test pk row

end Merge

/-- An equality scan with the session's own rows merged in gives the rows of the full scan whose
key column equals the value, if and only if the committed rows that the session has not
written are named by an entry that is read exactly when they compare equal to the value. If
all rows are encoded, those that are named have the encoding of the value. -/
theorem index_scan_sees_own_writes [Zones] [Primitives] {idx : TableIndex}
    (table : IndexedTable idx) (overlay : RowOverlay) (value : Value) :
    (mergeOverlayEq (table.indexScan value) overlay idx.leading value =
        (scanRowsKeyed table.rows overlay).values.filter (keyEquals idx value) ↔
      ∀ pk row, table.rows.get? pk = some row → overlay.get? pk = none →
        (table.Names value pk ↔ keyEquals idx value row = true)) ∧
    (table.Encoded → (idx.ordered = true → isScalar value = true) →
      ∀ pk row, table.rows.get? pk = some row →
        (table.Names value pk ↔ idx.SameKey value row)) := by
  refine ⟨?_, fun hencoded hscalar pk row hrow => ?_⟩
  on_goal 2 =>
    have hscan : (pk, row) ∈ table.indexScan value ↔ _ := mem_indexScan_of_encoded hencoded hscalar
    rw [mem_indexScan] at hscan
    simpa [hrow] using hscan
  rw [← values_filter]
  show (mergeOverlayBy _ overlay (keyEquals idx value)).values = _ ↔ _
  constructor
  · intro hvalues pk row hrow hown
    -- What is merged is a part of what is seen, and its rows pass the test.
    have hpart : ∀ pk row, (mergeOverlayBy (table.indexScan value) overlay
        (keyEquals idx value)).get? pk = some row →
        ((scanRowsKeyed table.rows overlay).filter fun _ r => keyEquals idx value r).get? pk =
          some row := by
      intro pk row hget
      have htest : keyEquals idx value row = true := by
        have hmem := mem_values.mpr ⟨pk, hget⟩
        rw [hvalues, values_filter, mem_filter] at hmem
        exact hmem.2
      rw [get?_seen]
      rcases (get?_merged table value overlay _ pk row).mp hget with h | ⟨hown, hrow, _⟩
      · exact .inl h
      · exact .inr ⟨hown, hrow, htest⟩
    have hmaps := eq_of_values hpart hvalues
    have hsame := get?_merged table value overlay (keyEquals idx value) pk row
    rw [hmaps, get?_seen, hown] at hsame
    simpa [hrow] using hsame.symm
  · intro hsame
    refine congrArg values (ext_get fun pk => Option.ext fun row => ?_)
    rw [get?_merged, get?_seen]
    refine or_congr_right (and_congr_right fun hown => and_congr_right fun hrow => ?_)
    exact hsame pk row hrow hown

namespace Fixed

theorem first_ne_nil : [0] ≠ [] := by simp

/-- An index in order on one column of floats. -/
def floatIndex : TableIndex := ⟨ascii "1", [ascii "FLOAT"], true, [0], first_ne_nil⟩

/-- A row with `-0`. -/
def negativeZero : Row := [.float 0x8000000000000000]

def negativeZeroTable :
    letI := zones
    letI := evaluator fun _ => none
    IndexedTable floatIndex :=
  letI := zones
  letI := evaluator fun _ => none
  { rows := OrdMap.empty.insert (ascii "7") negativeZero
    entries := [floatIndex.entryKey (ascii "7") negativeZero]
    sorted := List.pairwise_singleton _ _
    consistent := by
      intro key
      rw [List.mem_singleton]
      constructor
      · rintro rfl
        exact ⟨ascii "7", negativeZero, OrdMap.get?_insert_self _ _ _, rfl⟩
      · rintro ⟨pk, row, hrow, rfl⟩
        rw [OrdMap.get?_insert] at hrow
        split at hrow
        next h =>
          cases hrow
          rw [h]
        · cases hrow }

end Fixed

/-- `-0` equals `0`, but a scan for `0` does not find it. -/
theorem index_scan_misses_negative_zero :
    letI := Fixed.zones
    letI := Fixed.evaluator fun _ => none
    mergeOverlayEq (Fixed.negativeZeroTable.indexScan (.float 0)) empty
        Fixed.floatIndex.leading (.float 0) = [] ∧
      (scanRowsKeyed Fixed.negativeZeroTable.rows empty).values.filter
        (keyEquals Fixed.floatIndex (.float 0)) = [Fixed.negativeZero] := by
  let := Fixed.zones
  let := Fixed.evaluator fun _ => none
  have hrows : (scanRowsKeyed Fixed.negativeZeroTable.rows empty).values =
      [Fixed.negativeZero] := rfl
  refine ⟨isEmpty_iff.mp (by decide +kernel), ?_⟩
  rw [hrows, filter_cons_of_pos (by decide +kernel), filter_nil]

end NodusDb.Sql
