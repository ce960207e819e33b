import NodusDb.Lib.Texts
import NodusDb.Sql.Value

/-!
# Texts of composite values

The text of a composite value is `(1,"a b",)`: a field is quoted when it is empty or has a
character of the syntax, and a NULL field is empty.
-/

namespace NodusDb.Sql

open List

/-! ## Reading -/

/-- An empty field is NULL if it is not quoted. -/
def finishField (field : Text) (quoted : Bool) : Option Text :=
  if quoted ∨ field ≠ [] then some field else none

/-- Read the fields. The first flag says whether the text is inside quotes, the second whether the
field has a quoted part, and the text is what has been read of it. -/
def scanFields : (inside quoted : Bool) → (field text : Text) → Option (List (Option Text))
  | true, quoted, field, 34 :: 34 :: rest => scanFields true quoted (field ++ [34]) rest
  | true, quoted, field, 34 :: rest => scanFields false quoted field rest
  | false, _, field, 34 :: rest => scanFields true true field rest
  | true, quoted, field, 92 :: c :: rest => scanFields true quoted (field ++ [c]) rest
  | false, _, field, 92 :: c :: rest => scanFields false true (field ++ [c]) rest
  | _, _, _, [92] => none
  | false, quoted, field, 44 :: rest =>
    (scanFields false false [] rest).map (finishField field quoted :: ·)
  | inside, quoted, field, c :: rest => scanFields inside quoted (field ++ [c]) rest
  | true, _, _, [] => none
  | false, quoted, field, [] => some [finishField field quoted]

def parseRecordText (text : Text) : Option (List (Option Text)) :=
  match trim text with
  | 40 :: rest =>
    match rest.getLast? with
    | some 41 => scanFields false false [] rest.dropLast
    | _ => none
  | _ => none

/-! ## What was written is read -/

theorem scanFields_plain {text : Text} (h : ∀ c ∈ text, c ≠ 34 ∧ c ≠ 92 ∧ c ≠ 44) (quoted : Bool)
    (field rest : Text) :
    scanFields false quoted field (text ++ rest) =
      scanFields false quoted (field ++ text) rest := by
  induction text generalizing field with
  | nil => rw [nil_append, append_nil]
  | cons c text ih =>
    rw [forall_mem_cons] at h
    obtain ⟨⟨h34, h92, h44⟩, h⟩ := h
    rw [cons_append, scanFields, ih h, append_assoc, singleton_append]
    all_goals simp_all

def escapeField (text : Text) : Text :=
  text.flatMap fun c => if c ∈ ascii "\"\\" then [c, c] else [c]

theorem scanFields_quoted (text : Text) {rest : Text} (hrest : ∀ c ∈ rest.head?, c ≠ 34)
    (quoted : Bool) (field : Text) :
    scanFields true quoted field (escapeField text ++ 34 :: rest) =
      scanFields false quoted (field ++ text) rest := by
  induction text generalizing field with
  | nil =>
    rw [escapeField, flatMap_nil, nil_append, append_nil, scanFields]
    intro rest' hcons
    exact hrest 34 (by rw [hcons]; rfl) rfl
  | cons c text ih =>
    by_cases h34 : c = 34
    · subst h34
      show scanFields true quoted field (34 :: 34 :: (escapeField text ++ 34 :: rest)) = _
      rw [scanFields, ih, append_assoc, singleton_append]
    by_cases h92 : c = 92
    · subst h92
      show scanFields true quoted field (92 :: 92 :: (escapeField text ++ 34 :: rest)) = _
      rw [scanFields, ih, append_assoc, singleton_append]
    have hescape : escapeField (c :: text) = c :: escapeField text := by
      have hplain : c ∉ ascii "\"\\" := by
        intro hc
        rcases mem_pair.mp hc with hc | hc
        · exact h34 hc
        · exact h92 hc
      rw [escapeField, flatMap_cons, if_neg hplain]
      rfl
    rw [hescape, cons_append, scanFields, ih, append_assoc, singleton_append]
    all_goals simp_all

section Records

variable [Primitives]

theorem scanFields_recordField (text : Text) {rest : Text} (hrest : ∀ c ∈ rest.head?, c ≠ 34) :
    ∃ quoted, finishField text quoted = some text ∧
      scanFields false false [] (recordField text ++ rest) = scanFields false quoted text rest := by
  unfold recordField
  split
  · refine ⟨true, by rw [finishField, if_pos (.inl rfl)], ?_⟩
    rw [append_assoc, append_assoc]
    show scanFields false false [] (34 :: (escapeField text ++ 34 :: rest)) = _
    rw [scanFields, scanFields_quoted text hrest, nil_append]
  next hplain =>
  rw [not_or, not_or] at hplain
  obtain ⟨hne, _, hany⟩ := hplain
  refine ⟨false, by rw [finishField, if_pos (.inr hne)], ?_⟩
  rw [scanFields_plain, nil_append]
  intro c hc
  rw [any_eq_true, not_exists] at hany
  have hspecial : c ∉ ascii "\"\\()," := fun hmem => hany c ⟨hc, decide_eq_true hmem⟩
  refine ⟨?_, ?_, ?_⟩ <;> rintro rfl <;> exact hspecial (by decide)

def fieldTexts (fields : List (Text × Value)) : List (Option Text) :=
  fields.map fun field => if field.2.isNull then none else some (render field.2)

theorem scanFields_joinText {fields : List (Text × Value)} (h : fields ≠ []) :
    scanFields false false [] (joinText (ascii ",") (renderFields fields)) =
      some (fieldTexts fields) := by
  -- One field, up to the comma behind it or the end.
  have hfield : ∀ (field : Text × Value) (rest : Text), (∀ c ∈ rest.head?, c ≠ 34) →
      ∃ quoted text, finishField text quoted =
          (if field.2.isNull then none else some (render field.2)) ∧
        scanFields false false [] ((if field.2.isNull then [] else recordField (render field.2)) ++
          rest) = scanFields false quoted text rest := by
    intro field rest hrest
    split
    · exact ⟨false, [], rfl, rfl⟩
    obtain ⟨quoted, hfinish, hscan⟩ := scanFields_recordField (render field.2) hrest
    exact ⟨quoted, _, hfinish, hscan⟩
  induction fields with
  | nil => exact absurd rfl h
  | cons field fields ih =>
    cases fields with
    | nil =>
      obtain ⟨quoted, text, hfinish, hscan⟩ := hfield field [] (fun c hc => by cases hc)
      rw [append_nil] at hscan
      rw [renderFields, renderFields, joinText, hscan, scanFields, hfinish]
      rfl
    | cons next fields =>
      obtain ⟨quoted, text, hfinish, hscan⟩ := hfield field
        (44 :: joinText (ascii ",") (renderFields (next :: fields)))
        (fun c hc => Option.some.inj hc ▸ by decide)
      have hjoin : joinText (ascii ",") (renderFields (field :: next :: fields)) =
          (if field.2.isNull then [] else recordField (render field.2)) ++
            44 :: joinText (ascii ",") (renderFields (next :: fields)) := by
        rw [renderFields, renderFields, joinText, append_assoc]
        · rfl
        · exact fun hnil => by cases hnil
      rw [hjoin, hscan, scanFields, ih (cons_ne_nil _ _), Option.map_some, hfinish]
      rfl

theorem parseRecordText_render (fields : List (Text × Value)) :
    parseRecordText (render (.record fields)) =
      some (if fields = [] then [none] else fieldTexts fields) := by
  have htrim : trim (render (.record fields)) = render (.record fields) := by
    rw [render]
    exact trim_between _ (by decide) (by decide) (by decide +kernel) (by decide +kernel)
  rw [parseRecordText, htrim, render]
  set inner := joinText (ascii ",") (renderFields fields) with hinner
  show (match (inner ++ [41]).getLast? with
    | some 41 => scanFields false false [] (inner ++ [41]).dropLast
    | _ => none) = _
  rw [getLast?_concat, dropLast_concat]
  show scanFields false false [] inner = _
  by_cases hnil : fields = []
  · rw [if_pos hnil, hinner, hnil]
    rfl
  · rw [if_neg hnil, hinner, scanFields_joinText hnil]

end Records

end NodusDb.Sql
