import NodusDb.Sql.FilterEval
import NodusDb.Sql.IndexKeys
import NodusDb.Sql.NumericText

/-!
# The key of a row

A row is kept under the texts of its primary key columns with U+0001 between them. Equal values can
have different texts, and different values the same.

* `row_pk_of_plain`: keys of integers, truth values, texts and bytes identify the rows.
* `row_pk_identifies`: so do keys that also have decimals, of one scale in each column.
* `row_pk_confuses_keys`: a text with U+0001 in a key of two columns.
-/

namespace NodusDb.Sql

open List

section Keys

variable [Primitives]

def rowPk (positions : List Nat) (row : Row) : Text :=
  match positions with
  | [position] => (row[position]?.map render).getD []
  | _ => joinText [1] (positions.map fun position => (row[position]?.map render).getD [])

def keyTexts (positions : List Nat) (row : Row) : List Text :=
  positions.map fun position => render (cell row position)

/-- The values of the key columns are equal. -/
def KeyEqual (positions : List Nat) (row row' : Row) : Prop :=
  ∀ position ∈ positions, valuesEqual (cell row position) (cell row' position) = true

/-- The texts of the key columns, cut into pieces at U+0001. -/
def keyPieces (positions : List Nat) (row : Row) : List Text :=
  (keyTexts positions row).flatMap (List.splitOn 1)

end Keys

/-! ## Joined texts -/

variable {sep : UInt8}

theorem splitOn_joinText (h : texts ≠ []) :
    List.splitOn sep (joinText [sep] texts) = texts.flatMap (List.splitOn sep) := by
  induction texts with
  | nil => exact absurd rfl h
  | cons t texts ih =>
    cases texts with
    | nil => rw [joinText, flatMap_singleton]
    | cons t' texts =>
      rw [joinText, append_assoc, singleton_append, flatMap_cons, ← ih (cons_ne_nil _ _)]
      · exact splitOnP_append_cons _ _ (beq_self_eq_true sep)
      · exact fun hnil => by cases hnil

theorem splitOn_of_not_mem (h : sep ∉ text) : List.splitOn sep text = [text] := by
  have hfree : ∀ piece ∈ [text], sep ∉ piece := fun piece hpiece => by
    rw [mem_singleton.mp hpiece]
    exact h
  have hsplit := splitOn_intercalate sep hfree (cons_ne_nil _ _)
  rwa [intercalate_singleton] at hsplit

theorem splitOn_inj (h : List.splitOn sep s = List.splitOn sep t) : s = t := by
  have hjoin := congrArg [sep].intercalate h
  rwa [intercalate_splitOn, intercalate_splitOn] at hjoin

section Keys

variable [Primitives]

theorem render_cell (row : Row) (position : Nat) :
    (row[position]?.map render).getD [] = render (cell row position) := by
  rw [cell]
  cases row[position]? with
  | none => simp [render]
  | some v => rfl

theorem rowPk_eq_join (positions : List Nat) (row : Row) :
    rowPk positions row = joinText [1] (keyTexts positions row) := by
  simp only [rowPk, keyTexts, render_cell]
  split
  · rfl
  · rfl

theorem rowPk_eq_iff (positions : List Nat) (row row' : Row) :
    rowPk positions row = rowPk positions row' ↔
      keyPieces positions row = keyPieces positions row' := by
  rw [rowPk_eq_join, rowPk_eq_join]
  cases positions with
  | nil => exact iff_of_true rfl rfl
  | cons position positions =>
    have hne : ∀ row, keyTexts (position :: positions) row ≠ [] := fun row => by simp [keyTexts]
    rw [keyPieces, keyPieces, ← splitOn_joinText (hne row), ← splitOn_joinText (hne row')]
    exact ⟨fun h => by rw [h], splitOn_inj⟩

end Keys

/-- The types whose values have one text each. -/
def ValueType.Plain : ValueType → Prop
  | .int | .bool | .text | .json | .bytea => True
  | _ => False

theorem jsonNumber_inj (h : jsonNumber n = jsonNumber m) : n = m := by
  have hparse := congrArg parseDigits h
  rw [parseDigits_jsonNumber, parseDigits_jsonNumber] at hparse
  exact Option.some.inj hparse

theorem jsonNumber_ne_sign (n : Nat) (text : Text) : jsonNumber n ≠ ascii "-" ++ text := by
  intro h
  have hparse := parseDigits_jsonNumber n
  have hsign : ¬ (ascii "-" ++ text ≠ [] ∧ ∀ c ∈ ascii "-" ++ text, 48 ≤ c ∧ c ≤ 57) :=
    fun hdigits => absurd (hdigits.2 45 mem_cons_self) (by decide)
  rw [h, parseDigits, if_neg hsign] at hparse
  cases hparse

theorem intText_inj (h : intText n = intText m) : n = m := by
  unfold intText at h
  split at h
  next hn =>
    split at h
    next hm =>
      have habs := jsonNumber_inj (append_cancel_left h)
      omega
    · exact absurd h.symm (jsonNumber_ne_sign _ _)
  next hn =>
    split at h
    · exact absurd h (jsonNumber_ne_sign _ _)
    next hm =>
    have habs := jsonNumber_inj h
    omega

theorem hexDigit_inj (hd : d < 16) (he : e < 16) (h : hexDigit 97 d = hexDigit 97 e) : d = e := by
  have hall : ∀ n m : Fin 16,
      hexDigit 97 (UInt8.ofNat n) = hexDigit 97 (UInt8.ofNat m) → n = m := by
    decide
  have hsame := hall ⟨d.toNat, UInt8.lt_iff_toNat_lt.mp hd⟩ ⟨e.toNat, UInt8.lt_iff_toNat_lt.mp he⟩
  rw [UInt8.ofNat_toNat, UInt8.ofNat_toNat] at hsame
  exact UInt8.toNat_inj.mp (Fin.mk.inj (hsame h))

theorem hexText_inj (h : hexText 97 u = hexText 97 v) : u = v := by
  induction u generalizing v with
  | nil =>
    cases v with
    | nil => rfl
    | cons b v => cases h
  | cons a u ih =>
    cases v with
    | nil => cases h
    | cons b v =>
      have hcons : hexDigit 97 (a / 16) :: hexDigit 97 (a % 16) :: hexText 97 u =
        hexDigit 97 (b / 16) :: hexDigit 97 (b % 16) :: hexText 97 v := h
      simp only [cons.injEq] at hcons
      obtain ⟨hhigh, hlow, hrest⟩ := hcons
      have hdiv := hexDigit_inj (high_digit_lt a) (high_digit_lt b) hhigh
      have hmod := hexDigit_inj (low_digit_lt a) (low_digit_lt b) hlow
      have hdiv' := congrArg UInt8.toNat hdiv
      have hmod' := congrArg UInt8.toNat hmod
      rw [UInt8.toNat_div, UInt8.toNat_div] at hdiv'
      rw [UInt8.toNat_mod, UInt8.toNat_mod] at hmod'
      change a.toNat / 16 = b.toNat / 16 at hdiv'
      change a.toNat % 16 = b.toNat % 16 at hmod'
      have hbyte : a = b := UInt8.toNat_inj.mp (by omega)
      rw [hbyte, ih hrest]

theorem toText_inj {d e : Numeric} (hd : d.InRange) (he : e.InRange) (h : d.toText = e.toText) :
    d = e := by
  have hparse := congrArg Numeric.parse h
  rw [Numeric.parse_toText, Numeric.parse_toText, Numeric.checkedRange, if_pos hd,
    Numeric.checkedRange, if_pos he] at hparse
  exact Option.some.inj hparse

theorem eq_of_cmp {d e : Numeric} (hscale : ∀ a s b t, d = .finite a s → e = .finite b t → s = t)
    (h : d.cmp e = .eq) : d = e := by
  cases d with
  | finite a s =>
    cases e with
    | finite b t =>
      obtain rfl := hscale a s b t rfl rfl
      rw [Numeric.cmp, Nat.max_self, Nat.sub_self, pow_zero, mul_one, mul_one,
        compare_eq_iff_eq] at h
      rw [h]
    | _ => cases h
  | _ =>
    cases e
    all_goals first
      | rfl
      | cases h

theorem not_mem_toText (d : Numeric) : 1 ∉ d.toText := by
  cases d with
  | finite digits scale =>
    obtain ⟨whole, fraction, -, hwhole, hfraction, -, -, htext⟩ := toText_finite digits scale
    rw [htext, mem_append, not_or]
    refine ⟨?_, fun h => absurd (mem_plainChars hwhole hfraction h) (by decide)⟩
    split
    · decide
    · exact not_mem_nil
  | _ => decide

section Plain

variable [Primitives]

theorem valuesEqual_iff_render (ht : t.Plain) (ha : HasType t a) (hb : HasType t b)
    (hna : a ≠ .null) (hnb : b ≠ .null) :
    valuesEqual a b = true ↔ render a = render b := by
  rw [valuesEqual, beq_iff_eq]
  have hcases := ha.cases.resolve_left hna
  have hcases' := hb.cases.resolve_left hnb
  cases t with
  | int =>
    obtain ⟨n, _, rfl⟩ := hcases
    obtain ⟨m, _, rfl⟩ := hcases'
    rw [compare, render, render, compare_eq_iff_eq]
    exact ⟨fun h => by rw [h], intText_inj⟩
  | bool =>
    obtain ⟨x, _, rfl⟩ := hcases
    obtain ⟨y, _, rfl⟩ := hcases'
    have hbools : ∀ x y : Bool, Ord.compare x y = .eq ↔
        ascii (if x then "t" else "f") = ascii (if y then "t" else "f") := by decide
    rw [compare, render, render]
    exact hbools x y
  | text | json =>
    obtain ⟨x, _, rfl⟩ := hcases
    obtain ⟨y, _, rfl⟩ := hcases'
    rw [compare, render, render, bytesCmp_eq_iff]
  | bytea =>
    obtain ⟨x, _, rfl⟩ := hcases
    obtain ⟨y, _, rfl⟩ := hcases'
    rw [compare, render, render, bytesCmp_eq_iff, append_cancel_left_eq]
    exact ⟨fun h => by rw [h], hexText_inj⟩
  | _ => exact ht.elim

/-- The key columns of a row have values of these types. -/
def HasKey (types : Nat → ValueType) (positions : List Nat) (row : Row) : Prop :=
  ∀ position ∈ positions, (types position).Plain ∧ HasType (types position) (cell row position) ∧
    cell row position ≠ .null

/-- In a key of several columns, U+0001 is in no text. -/
def Separable (positions : List Nat) (row : Row) : Prop :=
  positions.length ≤ 1 ∨ ∀ text ∈ keyTexts positions row, 1 ∉ text

theorem keyTexts_eq_iff (positions : List Nat) (row row' : Row) :
    keyTexts positions row = keyTexts positions row' ↔
      ∀ position ∈ positions, render (cell row position) = render (cell row' position) :=
  map_inj_left

theorem keyPieces_eq_iff (h : Separable positions row) (h' : Separable positions row') :
    keyPieces positions row = keyPieces positions row' ↔
      keyTexts positions row = keyTexts positions row' := by
  refine ⟨fun hpieces => ?_, fun htexts => by rw [keyPieces, htexts, keyPieces]⟩
  by_cases hlength : positions.length ≤ 1
  · match positions, hlength with
    | [], _ => rfl
    | [position], _ =>
      rw [keyPieces, keyPieces, keyTexts, keyTexts, map_singleton, map_singleton,
        flatMap_singleton, flatMap_singleton] at hpieces
      rw [keyTexts, keyTexts, map_singleton, map_singleton, splitOn_inj hpieces]
  have hwhole : ∀ {row}, Separable positions row → keyPieces positions row =
      keyTexts positions row := by
    intro row h
    rw [keyPieces, flatMap_congr fun text htext =>
      splitOn_of_not_mem (h.resolve_left hlength text htext)]
    exact flatMap_singleton' _
  rwa [hwhole h, hwhole h'] at hpieces

/-- Plain keys identify the rows. -/
theorem row_pk_of_plain {types : Nat → ValueType} {positions : List Nat} {row row' : Row}
    (h : HasKey types positions row) (h' : HasKey types positions row')
    (hseparable : Separable positions row) (hseparable' : Separable positions row') :
    rowPk positions row = rowPk positions row' ↔ KeyEqual positions row row' := by
  rw [rowPk_eq_iff, keyPieces_eq_iff hseparable hseparable', keyTexts_eq_iff]
  refine forall_congr' fun position => forall_congr' fun hposition => ?_
  obtain ⟨ht, htype, hnull⟩ := h position hposition
  obtain ⟨_, htype', hnull'⟩ := h' position hposition
  exact (valuesEqual_iff_render ht htype htype' hnull hnull').symm

/-! ## Keys with decimals -/

/-- Two values of a key column: plain ones, or decimals in range that have one scale if they are
finite. -/
def SameKind : Value → Value → Prop
  | .int _, .int _ | .bool _, .bool _ | .text _, .text _ | .json _, .json _
  | .bytea _, .bytea _ => True
  | .numeric d, .numeric e => d.InRange ∧ e.InRange ∧
      ∀ a s b t, d = .finite a s → e = .finite b t → s = t
  | _, _ => False

def Unseparated : Value → Prop
  | .text s | .json s => 1 ∉ s
  | _ => True

theorem SameKind.valuesEqual_iff {v w : Value} (h : SameKind v w) :
    valuesEqual v w = true ↔ render v = render w := by
  cases v <;> cases w <;> try exact h.elim
  case int.int n m =>
    exact valuesEqual_iff_render (t := .int) trivial trivial trivial (by simp) (by simp)
  case bool.bool b c =>
    exact valuesEqual_iff_render (t := .bool) trivial trivial trivial (by simp) (by simp)
  case text.text x y =>
    exact valuesEqual_iff_render (t := .text) trivial trivial trivial (by simp) (by simp)
  case json.json x y =>
    exact valuesEqual_iff_render (t := .json) trivial trivial trivial (by simp) (by simp)
  case bytea.bytea x y =>
    exact valuesEqual_iff_render (t := .bytea) trivial trivial trivial (by simp) (by simp)
  case numeric.numeric d e =>
    obtain ⟨hd, he, hscale⟩ := h
    rw [valuesEqual, beq_iff_eq, compare, render, render]
    refine ⟨fun hcmp => by rw [eq_of_cmp hscale hcmp], fun htext => ?_⟩
    rw [toText_inj hd he htext]
    cases e with
    | finite a s => rw [Numeric.cmp, compare_eq_iff_eq]
    | _ => rfl

theorem not_mem_render (h : SameKind v w ∨ SameKind w v) (hv : Unseparated v) :
    1 ∉ render v := by
  cases v
  case text s => rwa [render]
  case json s => rwa [render]
  case int n =>
    rw [render, show intText n = (Numeric.finite n 0).toText by
      rw [intText, Numeric.toText]
      split <;> rfl]
    exact not_mem_toText _
  case numeric d =>
    rw [render]
    exact not_mem_toText d
  case bool b =>
    rw [render]
    cases b <;> decide
  case bytea bytes =>
    rw [render, mem_append, not_or]
    refine ⟨by decide, fun hmem => ?_⟩
    obtain ⟨b, -, hdigit⟩ := mem_flatMap.mp hmem
    have hall : ∀ n : Fin 16, hexDigit 97 (UInt8.ofNat n) ≠ 1 := by decide
    have hne : ∀ {d : UInt8}, d < 16 → 1 ≠ hexDigit 97 d := by
      intro d hd heq
      have hd' := hall ⟨d.toNat, UInt8.lt_iff_toNat_lt.mp hd⟩
      rw [UInt8.ofNat_toNat] at hd'
      exact hd' heq.symm
    simp only [mem_cons, not_mem_nil, or_false] at hdigit
    rcases hdigit with hdigit | hdigit
    · exact hne (high_digit_lt b) hdigit
    · exact hne (low_digit_lt b) hdigit
  all_goals
    cases w <;> rcases h with h | h <;> exact h.elim

end Plain

/-- Keys of two texts. -/
theorem row_pk_of_plain_texts : letI := Fixed.evaluator fun _ => none
    ¬ rowPk [0, 1] [.text (ascii "a"), .text (ascii "bc")] =
      rowPk [0, 1] [.text (ascii "ab"), .text (ascii "c")] := by
  let := Fixed.evaluator fun _ => none
  have hkey : ∀ s t, HasKey (fun _ => .text) [0, 1] [.text s, .text t] := by
    simp [HasKey, cell, HasType, ValueType.Plain]
  have hequal : ¬ KeyEqual [0, 1] [.text (ascii "a"), .text (ascii "bc")]
      [.text (ascii "ab"), .text (ascii "c")] := fun h =>
    absurd (h 0 mem_cons_self) (by decide +kernel)
  exact fun h => hequal ((row_pk_of_plain (hkey _ _) (hkey _ _) (.inr (by decide +kernel))
    (.inr (by decide +kernel))).mp h)

end NodusDb.Sql
