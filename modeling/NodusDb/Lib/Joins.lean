import NodusDb.Lib.OrdMap

/-!
# Joins of lists

The join of two lists on a relation: the related pairs and, for an outer join, the elements of a
side that are related to nothing. The elements may be found in a table of groups or in a sorted
list.
-/

section

open List

variable {α β γ K : Type}

/-! ## The join -/

theorem any_congr_mem {as : List α} {p q : α → Bool} (h : ∀ a ∈ as, p a = q a) :
    as.any p = as.any q := by
  induction as with
  | nil => rfl
  | cons a as ih =>
    rw [any_cons, any_cons, h a mem_cons_self, ih fun b hb => h b (mem_cons_of_mem a hb)]

theorem map_filter_zipIdx (as : List α) (p : α → Bool) :
    (as.zipIdx.filter fun a => p a.1).map (·.1) = as.filter p := by
  conv_rhs => rw [← zipIdx_map_fst 0 as, filter_map]
  rfl

section Join

variable (pair : α → β → γ) (leftAlone : α → γ) (rightAlone : β → γ) (keepLeft keepRight : Bool)

/-- The pairs that `on` relates, and the elements of the kept sides that it relates to
nothing. -/
def joinOf (on : α → β → Bool) (ls : List α) (rs : List β) : List γ :=
  (ls.flatMap fun l => (rs.filter (on l)).map (pair l)) ++
    (if keepLeft then (ls.filter fun l => !rs.any (on l)).map leftAlone else []) ++
    if keepRight then (rs.filter fun r => !ls.any fun l => on l r).map rightAlone else []

variable {pair leftAlone rightAlone keepLeft keepRight}
variable {on on' : α → β → Bool} {ls ls' : List α} {rs : List β}

theorem mem_joinOf :
    x ∈ joinOf pair leftAlone rightAlone keepLeft keepRight on ls rs ↔
      (∃ l ∈ ls, ∃ r ∈ rs, on l r = true ∧ x = pair l r) ∨
      (keepLeft = true ∧ ∃ l ∈ ls, (∀ r ∈ rs, on l r = false) ∧ x = leftAlone l) ∨
      (keepRight = true ∧ ∃ r ∈ rs, (∀ l ∈ ls, on l r = false) ∧ x = rightAlone r) := by
  simp only [joinOf, mem_append, mem_flatMap, mem_map, mem_filter, or_assoc]
  refine or_congr ?_ (or_congr ?_ ?_)
  · constructor
    · rintro ⟨l, hl, r, ⟨hr, hon⟩, rfl⟩
      exact ⟨l, hl, r, hr, hon, rfl⟩
    · rintro ⟨l, hl, r, hr, hon, rfl⟩
      exact ⟨l, hl, r, ⟨hr, hon⟩, rfl⟩
  · cases keepLeft with
    | false => simp
    | true => simp [and_assoc, @eq_comm γ x]
  · cases keepRight with
    | false => simp
    | true => simp [and_assoc, @eq_comm γ x]

theorem joinOf_congr (h : ∀ l ∈ ls, ∀ r ∈ rs, on l r = on' l r) :
    joinOf pair leftAlone rightAlone keepLeft keepRight on ls rs =
      joinOf pair leftAlone rightAlone keepLeft keepRight on' ls rs := by
  have hpairs : (ls.flatMap fun l => (rs.filter (on l)).map (pair l)) =
      ls.flatMap fun l => (rs.filter (on' l)).map (pair l) := by
    refine flatMap_congr fun l hl => ?_
    rw [filter_congr (h l hl)]
  have hleft : (ls.filter fun l => !rs.any (on l)) = ls.filter fun l => !rs.any (on' l) := by
    refine filter_congr fun l hl => ?_
    rw [any_congr_mem (h l hl)]
  have hright : (rs.filter fun r => !ls.any fun l => on l r) =
      rs.filter fun r => !ls.any fun l => on' l r := by
    refine filter_congr fun r hr => ?_
    rw [any_congr_mem fun l hl => h l hl r hr]
  rw [joinOf, joinOf, hpairs, hleft, hright]

/-- Elements of the left side that are related to nothing may be left out, unless the
left side is kept. -/
theorem joinOf_filter (hon : ∀ l ∈ ls, ∀ r ∈ rs, on l r = true → p l = true)
    (hkeep : keepLeft = true → ∀ l ∈ ls, p l = true) :
    joinOf pair leftAlone rightAlone keepLeft keepRight on (ls.filter p) rs =
      joinOf pair leftAlone rightAlone keepLeft keepRight on ls rs := by
  have hpairs : ((ls.filter p).flatMap fun l => (rs.filter (on l)).map (pair l)) =
      ls.flatMap fun l => (rs.filter (on l)).map (pair l) := by
    clear hkeep
    induction ls with
    | nil => rfl
    | cons l ls ih =>
      have ih := ih fun l' hl' => hon l' (mem_cons_of_mem _ hl')
      rw [filter_cons]
      split
      · rw [flatMap_cons, flatMap_cons, ih]
      next hp =>
      have hnil : rs.filter (on l) = [] :=
        filter_eq_nil_iff.mpr fun r hr hlr => hp (hon l mem_cons_self r hr hlr)
      rw [flatMap_cons, hnil, ih]
      rfl
  have hright : ∀ r ∈ rs, ((ls.filter p).any fun l => on l r) = ls.any fun l => on l r := by
    intro r hr
    rw [any_filter]
    refine any_congr_mem fun l hl => ?_
    cases hlr : on l r with
    | true => rw [hon l hl r hr hlr, Bool.and_self]
    | false => rw [Bool.and_false]
  have hright : (rs.filter fun r => !(ls.filter p).any fun l => on l r) =
      rs.filter fun r => !ls.any fun l => on l r :=
    filter_congr fun r hr => by rw [hright r hr]
  rw [joinOf, joinOf, hpairs, hright]
  cases keepLeft with
  | false => rfl
  | true => rw [filter_eq_self.mpr (hkeep rfl)]

/-- The order of the left side shows in the order of the join only. -/
theorem joinOf_perm (h : ls.Perm ls') :
    (joinOf pair leftAlone rightAlone keepLeft keepRight on ls rs).Perm
      (joinOf pair leftAlone rightAlone keepLeft keepRight on ls' rs) := by
  have hright : (rs.filter fun r => !ls.any fun l => on l r) =
      rs.filter fun r => !ls'.any fun l => on l r :=
    filter_congr fun r _ => by rw [Bool.eq_iff_iff]; simp [h.mem_iff]
  rw [joinOf, joinOf, hright]
  refine ((h.flatMap_right _).append ?_).append_right _
  split
  · exact (h.filter _).map _
  · exact .refl _

/-- A join row by row: for each element of the left side its pairs, or the element alone. -/
theorem joinOf_rows_perm :
    ((ls.flatMap fun l => (rs.filter (on l)).map (pair l) ++
      if rs.any (on l) then [] else if keepLeft then [leftAlone l] else []) ++
        if keepRight then (rs.filter fun r => !ls.any fun l => on l r).map rightAlone else []).Perm
      (joinOf pair leftAlone rightAlone keepLeft keepRight on ls rs) := by
  refine List.Perm.append_right _ ((flatMap_append_perm ls _ _).symm.trans ?_)
  refine List.Perm.append_left _ (List.Perm.of_eq ?_)
  cases keepLeft with
  | false => simp
  | true =>
    simp only [if_true]
    induction ls with
    | nil => rfl
    | cons l ls ih =>
      rw [flatMap_cons, ih, filter_cons]
      cases rs.any (on l) <;> simp

variable {p : γ → Bool}

/-- A test of the joined elements that looks at the left element only, and fails for the
right elements that stand alone, is a test of the left side. -/
theorem filter_joinOf (hpair : ∀ l ∈ ls, ∀ r, p (pair l r) = q l)
    (hleft : ∀ l ∈ ls, p (leftAlone l) = q l) (hright : ∀ r, p (rightAlone r) = false) :
    (joinOf pair leftAlone rightAlone keepLeft keepRight on ls rs).filter p =
      joinOf pair leftAlone rightAlone keepLeft false on (ls.filter q) rs := by
  have hpairs : (ls.flatMap fun l => (rs.filter (on l)).map (pair l)).filter p =
      (ls.filter q).flatMap fun l => (rs.filter (on l)).map (pair l) := by
    clear hleft
    induction ls with
    | nil => rfl
    | cons l ls ih =>
      have hmap : ((rs.filter (on l)).map (pair l)).filter p =
          if q l then (rs.filter (on l)).map (pair l) else [] := by
        rw [filter_map]
        split
        next hq => rw [filter_eq_self.mpr fun r _ => by simp [hpair l, hq]]
        next hq => rw [filter_eq_nil_iff.mpr fun r _ => by simp [hpair l, hq]]; rfl
      rw [flatMap_cons, filter_append, hmap,
        ih fun l' hl' => hpair l' (mem_cons_of_mem _ hl'), filter_cons]
      split
      · rw [flatMap_cons]
      · rfl
  have hlefts : ((ls.filter fun l => !rs.any (on l)).map leftAlone).filter p =
      ((ls.filter q).filter fun l => !rs.any (on l)).map leftAlone := by
    rw [filter_map, filter_filter, filter_filter]
    refine congrArg _ (filter_congr fun l hl => ?_)
    rw [Function.comp, hleft l hl, Bool.and_comm]
  have hrights : ((rs.filter fun r => !ls.any fun l => on l r).map rightAlone).filter p = [] :=
    filter_eq_nil_iff.mpr fun x hx => by
      obtain ⟨r, _, rfl⟩ := mem_map.mp hx
      simp [hright r]
  rw [joinOf, joinOf, filter_append, filter_append, hpairs]
  cases keepLeft <;> cases keepRight <;> simp [hlefts, hrights]

/-- A test that fails for the left elements that stand alone does not see whether they are
kept. -/
theorem filter_joinOf_keepLeft (h : ∀ l ∈ ls, p (leftAlone l) = false) :
    (joinOf pair leftAlone rightAlone keepLeft keepRight on ls rs).filter p =
      (joinOf pair leftAlone rightAlone false keepRight on ls rs).filter p := by
  have hnil : ((ls.filter fun l => !rs.any (on l)).map leftAlone).filter p = [] :=
    filter_eq_nil_iff.mpr fun x hx => by
      obtain ⟨l, hl, rfl⟩ := mem_map.mp hx
      simp [h l (mem_of_mem_filter hl)]
  cases keepLeft <;> simp [joinOf, hnil]

theorem filter_joinOf_keepRight (h : ∀ r ∈ rs, p (rightAlone r) = false) :
    (joinOf pair leftAlone rightAlone keepLeft keepRight on ls rs).filter p =
      (joinOf pair leftAlone rightAlone keepLeft false on ls rs).filter p := by
  have hnil : ((rs.filter fun r => !ls.any fun l => on l r).map rightAlone).filter p = [] :=
    filter_eq_nil_iff.mpr fun x hx => by
      obtain ⟨r, hr, rfl⟩ := mem_map.mp hx
      simp [h r (mem_of_mem_filter hr)]
  cases keepRight <;> simp [joinOf, hnil]

/-- A join of filtered sides is the filtered join, if a side is filtered only where the
other one is not kept. -/
theorem joinOf_filter_filter (hpair : ∀ l ∈ ls, ∀ r ∈ rs, p (pair l r) = (q l && q' r))
    (hleft : keepLeft = true → (∀ r ∈ rs, q' r = true) ∧ ∀ l ∈ ls, p (leftAlone l) = q l)
    (hright : keepRight = true → (∀ l ∈ ls, q l = true) ∧ ∀ r ∈ rs, p (rightAlone r) = q' r) :
    joinOf pair leftAlone rightAlone keepLeft keepRight on (ls.filter q) (rs.filter q') =
      (joinOf pair leftAlone rightAlone keepLeft keepRight on ls rs).filter p := by
  have hpairs : ((ls.filter q).flatMap fun l => ((rs.filter q').filter (on l)).map (pair l)) =
      (ls.flatMap fun l => (rs.filter (on l)).map (pair l)).filter p := by
    clear hleft hright
    induction ls with
    | nil => rfl
    | cons l ls ih =>
      have hmap : ((rs.filter (on l)).map (pair l)).filter p =
          if q l then ((rs.filter q').filter (on l)).map (pair l) else [] := by
        rw [filter_map, filter_filter]
        split
        next hq =>
          rw [filter_filter]
          refine congrArg _ (filter_congr fun r hr => ?_)
          rw [Function.comp, hpair l mem_cons_self r hr, hq, Bool.true_and, Bool.and_comm]
        next hq =>
          rw [filter_eq_nil_iff.mpr fun r hr => ?_, map_nil]
          simp [hpair l mem_cons_self r hr, hq]
      rw [flatMap_cons, filter_append, hmap,
        ← ih fun l' hl' => hpair l' (mem_cons_of_mem _ hl'), filter_cons]
      split
      · rw [flatMap_cons]
      · rfl
  have hlefts : keepLeft = true →
      ((ls.filter q).filter fun l => !(rs.filter q').any (on l)).map leftAlone =
        ((ls.filter fun l => !rs.any (on l)).map leftAlone).filter p := by
    intro hkeep
    rw [filter_eq_self.mpr (hleft hkeep).1, filter_map, filter_filter, filter_filter]
    refine congrArg _ (filter_congr fun l hl => ?_)
    rw [Function.comp, (hleft hkeep).2 l hl, Bool.and_comm]
  have hrights : keepRight = true →
      ((rs.filter q').filter fun r => !(ls.filter q).any fun l => on l r).map rightAlone =
        ((rs.filter fun r => !ls.any fun l => on l r).map rightAlone).filter p := by
    intro hkeep
    rw [filter_eq_self.mpr (hright hkeep).1, filter_map, filter_filter, filter_filter]
    refine congrArg _ (filter_congr fun r hr => ?_)
    rw [Function.comp, (hright hkeep).2 r hr, Bool.and_comm]
  rw [joinOf, joinOf, filter_append, filter_append, hpairs]
  congr 1
  · congr 1
    split
    next hkeep => exact hlefts hkeep
    · rfl
  · split
    next hkeep => exact hrights hkeep
    · rfl

end Join

/-- A map of the elements of the left side is a map of the joined elements. -/
theorem joinOf_map {pair : α → β → γ} (f : δ → α) (g : ε → γ) (pair' : δ → β → ε)
    (leftAlone' : δ → ε) (rightAlone' : β → ε) (hpair : ∀ l r, g (pair' l r) = pair (f l) r)
    (hleft : ∀ l, g (leftAlone' l) = leftAlone (f l))
    (hright : ∀ r, g (rightAlone' r) = rightAlone r) (ls : List δ) :
    joinOf pair leftAlone rightAlone keepLeft keepRight on (ls.map f) rs =
      (joinOf pair' leftAlone' rightAlone' keepLeft keepRight (fun l r => on (f l) r) ls rs).map
        g := by
  have hpairs : ((ls.map f).flatMap fun l => (rs.filter (on l)).map (pair l)) =
      (ls.flatMap fun l => (rs.filter (on (f l))).map (pair' l)).map g := by
    simp [flatMap_map, map_flatMap, Function.comp_def, hpair]
  have hlefts : ((ls.map f).filter fun l => !rs.any (on l)).map leftAlone =
      ((ls.filter fun l => !rs.any (on (f l))).map leftAlone').map g := by
    simp [filter_map, Function.comp_def, hleft]
  have hrights : (rs.filter fun r => !(ls.map f).any fun l => on l r).map rightAlone =
      ((rs.filter fun r => !ls.any fun l => on (f l) r).map rightAlone').map g := by
    simp [Function.comp_def, hright]
  rw [joinOf, joinOf, map_append, map_append, hpairs]
  congr 1
  · congr 1
    cases keepLeft with
    | false => rfl
    | true => exact hlefts
  · cases keepRight with
    | false => rfl
    | true => exact hrights

/-! ## Lookups by key -/

section Table

variable [LinearOrder K]

/-- The elements with the same key, in order. -/
def groupTable (items : List (K × α)) : OrdMap K (List α) :=
  items.foldl (fun table item => table.insert item.1 ((table.get? item.1).getD [] ++ [item.2]))
    .empty

theorem getD_groupTable (items : List (K × α)) (k : K) :
    ((groupTable items).get? k).getD [] = (items.filter fun item => item.1 = k).map (·.2) := by
  have hfold : ∀ table : OrdMap K (List α),
      ((items.foldl (fun table item =>
        table.insert item.1 ((table.get? item.1).getD [] ++ [item.2])) table).get? k).getD [] =
      (table.get? k).getD [] ++ (items.filter fun item => item.1 = k).map (·.2) := by
    induction items with
    | nil => simp
    | cons item items ih =>
      intro table
      rw [foldl_cons, ih, OrdMap.get?_insert, filter_cons]
      by_cases hk : item.1 = k
      · simp [hk]
      · simp [hk, Ne.symm hk]
  rw [groupTable, hfold, OrdMap.get?_empty]
  rfl

theorem takeWhile_dropWhile_sorted {items : List (K × α)} (k : K)
    (h : items.Pairwise fun a b => a.1 ≤ b.1) :
    (items.dropWhile fun item => item.1 < k).takeWhile (fun item => item.1 = k) =
      items.filter fun item => item.1 = k := by
  induction items with
  | nil => rfl
  | cons item items ih =>
    have hle : ∀ b ∈ items, item.1 ≤ b.1 := fun b hb => rel_of_pairwise_cons h hb
    have ih := ih h.of_cons
    rw [dropWhile_cons, filter_cons]
    rcases lt_trichotomy item.1 k with hlt | heq | hgt
    · rw [if_pos (decide_eq_true hlt), ih, if_neg (by simp [hlt.ne])]
    · -- From here on no key is smaller.
      have hdrop : (items.dropWhile fun item => item.1 < k) = items := by
        cases items with
        | nil => rfl
        | cons b items =>
          rw [dropWhile_cons, if_neg]
          simpa [heq] using hle b mem_cons_self
      rw [if_neg (by simp [heq]), takeWhile_cons, if_pos (by simp [heq]),
        if_pos (by simp [heq]), ← ih, hdrop]
    · have hnone : items.filter (fun item => item.1 = k) = [] :=
        filter_eq_nil_iff.mpr fun b hb => by simpa using (hgt.trans_le (hle b hb)).ne'
      rw [if_neg (by simp [hgt.le]), takeWhile_cons, if_neg (by simp [hgt.ne']),
        if_neg (by simp [hgt.ne']), hnone]

end Table

end
