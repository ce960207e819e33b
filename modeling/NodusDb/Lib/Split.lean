import Mathlib.Data.List.Basic

/-!
# Splitting a list at a separator

The parts with the separator between them are the list, and parts without it are found again.
-/

variable {α : Type} [DecidableEq α]

/-- What stands before and after the first separator. -/
def splitOnce (sep : α) : List α → Option (List α × List α)
  | [] => none
  | a :: as =>
    if a = sep then some ([], as)
    else (splitOnce sep as).map fun parts => (a :: parts.1, parts.2)

/-- What stands before and after the last separator. -/
def rsplitOnce (sep : α) (as : List α) : Option (List α × List α) :=
  (splitOnce sep as.reverse).map fun parts => (parts.2.reverse, parts.1.reverse)

variable {as before : List α} {sep : α}

theorem splitOnce_eq_some {after : List α}
    (h : splitOnce sep as = some (before, after)) : as = before ++ sep :: after := by
  induction as generalizing before with
  | nil => cases h
  | cons a as ih =>
    rw [splitOnce] at h
    split at h
    next ha =>
      cases h
      rw [ha, List.nil_append]
    · obtain ⟨parts, hparts, h⟩ := Option.map_eq_some_iff.mp h
      cases h
      rw [ih hparts, List.cons_append]

theorem rsplitOnce_eq_some {after : List α}
    (h : rsplitOnce sep as = some (before, after)) : as = before ++ sep :: after := by
  obtain ⟨parts, hparts, h⟩ := Option.map_eq_some_iff.mp h
  cases h
  have hsplit := congrArg List.reverse (splitOnce_eq_some hparts)
  simpa using hsplit

theorem splitOnce_append (after : List α) (h : sep ∉ before) :
    splitOnce sep (before ++ sep :: after) = some (before, after) := by
  induction before with
  | nil => rw [List.nil_append, splitOnce, if_pos rfl]
  | cons a before ih =>
    rw [List.mem_cons, not_or] at h
    rw [List.cons_append, splitOnce, if_neg (Ne.symm h.1), ih h.2, Option.map_some]

theorem splitOnce_eq_none (h : sep ∉ as) : splitOnce sep as = none := by
  induction as with
  | nil => rfl
  | cons a as ih =>
    rw [List.mem_cons, not_or] at h
    rw [splitOnce, if_neg (Ne.symm h.1), ih h.2, Option.map_none]
