import NodusDb.Sql.RowKey

/-!
# Set operations

`UNION`, `INTERSECT` and `EXCEPT` take rows for equal when they have one text: the texts of the
columns with U+0001 between them. NULL has the text of the empty string; `0` and `-0` have two.

* `set_ops_follow_sql`: when the operations count rows as SQL does.
* `rowKey_separates`: values for which they do.
* `setOps_split_left`: intersection and difference share the left operand out.
* `null_union_empty`: NULL and the empty string.
-/

namespace NodusDb.Sql

open List

section SetOps

variable [Primitives]

def rowKey (row : Row) : Text := joinText [1] (row.map fun v => render (keyForm v))

/-- `dedup_rows`: the first row of every text. -/
def dedupRows (seen : List Text) : List Row → List Row
  | [] => []
  | row :: rows =>
    if rowKey row ∈ seen then dedupRows seen rows
    else row :: dedupRows (rowKey row :: seen) rows

def countRows (rows : List Row) : Text → Nat :=
  rows.foldl (fun counts row => Function.update counts (rowKey row) (counts (rowKey row) + 1))
    fun _ => 0

/-- The loop of `INTERSECT` and `EXCEPT`: a row is kept or not by how many of its text came before
it on the left and how many there are on the right. -/
def keepRows (keep : Nat → Nat → Bool) (rightCounts : Text → Nat) :
    (emitted : Text → Nat) → List Row → List Row
  | _, [] => []
  | emitted, row :: rows =>
    let k := rowKey row
    let rest := keepRows keep rightCounts (Function.update emitted k (emitted k + 1)) rows
    if keep (emitted k) (rightCounts k) then row :: rest else rest

def setOpRows (op : SetOpKind) (all : Bool) (left right : List Row) : List Row :=
  match op with
  | .union => if all then left ++ right else dedupRows [] (left ++ right)
  | .intersect =>
    keepRows (fun used available => if all then used < available else used = 0 ∧ 0 < available)
      (countRows right) (fun _ => 0) left
  | .except =>
    keepRows (fun used rightN => if all then rightN ≤ used else used = 0 ∧ rightN = 0)
      (countRows right) (fun _ => 0) left

/-! ## What SQL says -/

/-- NULL is equal to NULL, other values are by SQL equality. -/
def notDistinct : Row → Row → Bool
  | [], [] => true
  | a :: row, b :: row' =>
    (if a.isNull then b.isNull else !b.isNull && valuesEqual a b) && notDistinct row row'
  | _, _ => false

/-- How often a row is returned that is there `l` and `r` times. -/
def multiplicity (op : SetOpKind) (all : Bool) (l r : Nat) : Nat :=
  match op, all with
  | .union, true => l + r
  | .intersect, true => min l r
  | .except, true => l - r
  | .union, false => min (l + r) 1
  | .intersect, false => if 0 < r then min l 1 else 0
  | .except, false => if r = 0 then min l 1 else 0

/-- The operations return rows of the inputs, those of each class as often as SQL says. -/
structure FollowsSql (left right : List Row) : Prop where
  refl : ∀ row ∈ left ++ right, notDistinct row row = true
  rows : ∀ op all, setOpRows op all left right ⊆ left ++ right
  counts : ∀ op all, ∀ row ∈ left ++ right,
    (setOpRows op all left right).countP (notDistinct row) =
      multiplicity op all (left.countP (notDistinct row)) (right.countP (notDistinct row))

/-! ## Rows of one text -/

variable {keep : Nat → Nat → Bool} {counts emitted : Text → Nat} {rows : List Row} {k : Text}

theorem countRows_eq : countRows rows k = rows.countP (rowKey · = k) := by
  have hloop : ∀ counts : Text → Nat, rows.foldl (fun counts row =>
      Function.update counts (rowKey row) (counts (rowKey row) + 1)) counts k =
        counts k + rows.countP (rowKey · = k) := by
    induction rows with
    | nil => exact fun _ => rfl
    | cons row rows ih =>
      intro counts
      rw [foldl_cons, ih, countP_cons, Function.update_apply]
      grind
  rw [countRows, hloop, Nat.zero_add]

/-- A text that comes `n` times on the left is decided `n` times, each time with one more
before it. -/
theorem countP_keepRows : (keepRows keep counts emitted rows).countP (rowKey · = k) =
    (List.range' (emitted k) (rows.countP (rowKey · = k))).countP (keep · (counts k)) := by
  induction rows generalizing emitted with
  | nil => rfl
  | cons row rows ih =>
    have hrest := @ih (Function.update emitted (rowKey row) (emitted (rowKey row) + 1))
    by_cases hk : rowKey row = k
    · subst hk
      rw [Function.update_self] at hrest
      rw [keepRows, countP_cons_of_pos (by simp), range'_succ, countP_cons]
      split
      · rw [countP_cons_of_pos (by simp), hrest]
      · exact hrest
    · rw [Function.update_of_ne (Ne.symm hk)] at hrest
      rw [keepRows, countP_cons_of_neg (by simpa using hk)]
      split
      · rw [countP_cons_of_neg (by simpa using hk), hrest]
      · exact hrest

theorem countP_dedupRows : (dedupRows seen rows).countP (rowKey · = k) =
    if k ∈ seen then 0 else min (rows.countP (rowKey · = k)) 1 := by
  induction rows generalizing seen with
  | nil => simp [dedupRows]
  | cons row rows ih =>
    rw [dedupRows]
    by_cases hk : rowKey row = k
    · subst hk
      split
      next hseen => rw [ih, if_pos hseen]
      next hseen => simp [ih, hseen]
    rw [countP_cons_of_neg (by simpa using hk)]
    split
    · exact ih
    rw [countP_cons_of_neg (by simpa using hk), ih]
    simp [Ne.symm hk]

theorem countP_setOpRows (op : SetOpKind) (all : Bool) (left right : List Row) (k : Text) :
    (setOpRows op all left right).countP (rowKey · = k) =
      multiplicity op all (left.countP (rowKey · = k)) (right.countP (rowKey · = k)) := by
  have hrange : ∀ (p : Nat → Bool) (f : Nat → Nat), f 0 = 0 →
      (∀ n, f (n + 1) = f n + if p n then 1 else 0) → ∀ n, (range' 0 n).countP p = f n := by
    intro p f hzero hsucc n
    induction n with
    | zero => exact hzero.symm
    | succ n ih => rw [range'_concat, countP_append, ih, hsucc]; simp
  cases op with
  | union =>
    cases all with
    | true => exact countP_append
    | false =>
      refine countP_dedupRows.trans ?_
      rw [if_neg not_mem_nil, countP_append]
      rfl
  | intersect | except =>
    refine countP_keepRows.trans ?_
    rw [countRows_eq]
    cases all <;> refine hrange _ (multiplicity _ _ · _) ?_ (fun n => ?_) _ <;>
      grind [multiplicity]

theorem keepRows_subset : keepRows keep counts emitted rows ⊆ rows := by
  induction rows generalizing emitted with
  | nil => exact fun _ h => h
  | cons row rows ih => grind [keepRows]

theorem dedupRows_subset : dedupRows seen rows ⊆ rows := by
  induction rows generalizing seen with
  | nil => exact fun _ h => h
  | cons row rows ih => grind [dedupRows]

theorem setOpRows_subset (op : SetOpKind) (all : Bool) (left right : List Row) :
    setOpRows op all left right ⊆ left ++ right := by
  cases op with
  | union =>
    cases all with
    | true => exact fun _ h => h
    | false => exact dedupRows_subset
  | intersect | except => exact fun _ h => mem_append_left _ (keepRows_subset h)

/-- On lists of these rows the operations follow SQL if and only if the rows have one text
exactly when they are not distinct. -/
theorem set_ops_follow_sql (rows : List Row) :
    (∀ left right, left ⊆ rows → right ⊆ rows → FollowsSql left right) ↔
      ∀ a ∈ rows, ∀ b ∈ rows, rowKey a = rowKey b ↔ notDistinct a b = true := by
  constructor
  · intro h a ha b hb
    have hsql : ∀ {a b}, a ∈ rows → b ∈ rows → FollowsSql [a] [b] := fun ha hb =>
      h _ _ (by simpa using ha) (by simpa using hb)
    -- The union of two single rows.
    constructor
    · intro hkey
      have hrefl := (hsql hb ha).refl a (by simp)
      have hcount := (hsql hb ha).counts .union false a (by simp)
      simpa [setOpRows, dedupRows, multiplicity, hkey, hrefl] using hcount
    · intro hsame
      by_contra hkey
      have hrefl := (hsql ha hb).refl a (by simp)
      have hcount := (hsql ha hb).counts .union false a (by simp)
      simp [setOpRows, dedupRows, multiplicity, Ne.symm hkey, hrefl, hsame] at hcount
  · intro h left right hleft hright
    have hall : left ++ right ⊆ rows := append_subset.mpr ⟨hleft, hright⟩
    refine ⟨fun row hrow => (h row (hall hrow) row (hall hrow)).mp rfl, fun op all =>
      setOpRows_subset op all left right, fun op all row hrow => ?_⟩
    have hcount : ∀ {xs}, xs ⊆ rows →
        xs.countP (notDistinct row) = xs.countP (rowKey · = rowKey row) := by
      refine fun hxs => countP_congr fun x hx => ?_
      rw [← h row (hall hrow) x (hxs hx), decide_eq_true_iff, eq_comm]
    rw [hcount hleft, hcount hright, hcount fun x hx => hall (setOpRows_subset op all left right hx)]
    exact countP_setOpRows op all left right (rowKey row)

/-- Rows of plain types without NULLs, whose texts do not have U+0001. -/
def PlainRow (types : List ValueType) (row : Row) : Prop :=
  Forall₂ (fun t v => t.Plain ∧ HasType t v ∧ v ≠ .null ∧ 1 ∉ render v) types row

theorem rowKey_plain (h : PlainRow types row) :
    rowKey row = joinText [1] (row.map render) ∧
      (row.map render).flatMap (List.splitOn 1) = row.map render := by
  have hforms : row.map (fun v => render (keyForm v)) = row.map render ∧
      (row.map render).flatMap (List.splitOn 1) = row.map render := by
    induction h with
    | nil => exact ⟨rfl, rfl⟩
    | @cons t v _ _ hv _ ih =>
      obtain ⟨ht, htype, _, hsep⟩ := hv
      have hform : keyForm v = v := by
        cases t <;> cases v <;> first | rfl | exact absurd htype id | exact absurd ht id
      rw [map_cons, hform, ih.1, map_cons, flatMap_cons, ih.2, splitOn_of_not_mem hsep]
      exact ⟨rfl, rfl⟩
  exact ⟨by rw [rowKey, hforms.1], hforms.2⟩

theorem notDistinct_iff_render {a b : Row} (ha : PlainRow types a) (hb : PlainRow types b) :
    notDistinct a b = true ↔ a.map render = b.map render := by
  induction ha generalizing b with
  | nil =>
    cases hb
    exact iff_of_true rfl rfl
  | @cons t v _ _ hv _ ih =>
    cases hb with
    | @cons _ w _ _ hw hb =>
      have hnull : ∀ {x : Value}, x ≠ .null → x.isNull = false := fun {x} hx => by
        cases x <;> first | rfl | exact absurd rfl hx
      rw [notDistinct, hnull hv.2.2.1, hnull hw.2.2.1, if_neg Bool.false_ne_true, Bool.not_false,
        Bool.true_and, Bool.and_eq_true, map_cons, map_cons, cons.injEq, ih hb,
        valuesEqual_iff_render hv.1 hv.2.1 hw.2.1 hv.2.2.1 hw.2.2.1]

theorem rowKey_separates {a b : Row} (ha : PlainRow types a) (hb : PlainRow types b) :
    rowKey a = rowKey b ↔ notDistinct a b = true := by
  rw [notDistinct_iff_render ha hb, (rowKey_plain ha).1, (rowKey_plain hb).1]
  refine ⟨fun h => ?_, fun h => by rw [h]⟩
  by_cases hnil : types = []
  · subst hnil
    cases ha
    cases hb
    rfl
  have hne : ∀ {row}, PlainRow types row → row.map render ≠ [] := fun hrow hempty =>
    hnil (length_eq_zero_iff.mp (hrow.length_eq.trans (by simpa using hempty)))
  have hsplit := congrArg (List.splitOn 1) h
  rwa [splitOn_joinText (hne ha), splitOn_joinText (hne hb), (rowKey_plain ha).2,
    (rowKey_plain hb).2] at hsplit

theorem keepRows_split {keep' : Nat → Nat → Bool} (either : Nat → Nat → Bool)
    (h : ∀ used n, either used n = (keep used n ^^ keep' used n) ∧ ¬ (keep used n ∧ keep' used n)) :
    (keepRows keep counts emitted rows ++ keepRows keep' counts emitted rows).Perm
      (keepRows either counts emitted rows) := by
  induction rows generalizing emitted with
  | nil => exact .refl _
  | cons row rows ih =>
    obtain ⟨heither, hboth⟩ := h (emitted (rowKey row)) (counts (rowKey row))
    simp only [keepRows, heither]
    cases hk : keep (emitted (rowKey row)) (counts (rowKey row)) <;>
      cases hk' : keep' (emitted (rowKey row)) (counts (rowKey row))
    · exact ih
    · exact perm_middle.trans (ih.cons row)
    · exact ih.cons row
    · exact absurd ⟨hk, hk'⟩ hboth

theorem keepRows_all : keepRows (fun _ _ => true) counts emitted rows = rows := by
  induction rows generalizing emitted with
  | nil => rfl
  | cons row rows ih => rw [keepRows, ih, if_pos rfl]

theorem keepRows_first {seen : List Text} (h : ∀ k, k ∈ seen ↔ emitted k ≠ 0) :
    keepRows (fun used _ => used = 0) counts emitted rows = dedupRows seen rows := by
  induction rows generalizing emitted seen with
  | nil => rfl
  | cons row rows ih =>
    simp only [keepRows, dedupRows, decide_eq_true_eq, h]
    by_cases hk : emitted (rowKey row) = 0
    · rw [if_pos hk, if_neg (not_not.mpr hk), ih fun k => ?_]
      rw [Function.update_apply, mem_cons, h]
      grind
    · rw [if_neg hk, if_pos hk, ih fun k => ?_]
      rw [Function.update_apply, h]
      grind

/-- `INTERSECT` and `EXCEPT` with one right operand share the left one out between them. -/
theorem setOps_split_left (all : Bool) (left right : List Row) :
    (setOpRows .intersect all left right ++ setOpRows .except all left right).Perm
      (setOpRows .union all left []) := by
  simp only [setOpRows, append_nil]
  cases all with
  | true =>
    refine (keepRows_split (fun _ _ => true) fun used n => ?_).trans (.of_eq keepRows_all)
    grind
  | false =>
    refine (keepRows_split (fun used _ => used = 0) fun used n => ?_).trans
      (.of_eq (keepRows_first (by simp)))
    grind

end SetOps

/-- `SELECT NULL UNION SELECT ''` returns one row. -/
theorem null_union_empty :
    letI := Fixed.evaluator fun _ => none
    (setOpRows .union false [[.null]] [[.text []]]).length = 1 ∧
      ¬ FollowsSql [[.null]] [[.text []]] := by
  let := Fixed.evaluator fun _ => none
  refine ⟨by decide +kernel, fun h => ?_⟩
  exact absurd (h.counts .union false [.text []] (by simp)) (by decide +kernel)

end NodusDb.Sql
