import Mathlib

/-!
# List operations

The iterator and vector operations a version store is written with (`maxByKey`, `modifyLast`,
`dedupAdjacent`), and what each of them does to the elements.
-/

variable {α : Type}

/-! ## The largest element -/

/-- The element with the largest key; of several, the last. -/
def maxByKey (key : α → Nat) : List α → Option α
  | [] => none
  | a :: as =>
    match maxByKey key as with
    | none => some a
    | some b => if key a ≤ key b then some b else some a

variable {as : List α} {key : α → Nat} {f : α → α} {p : α → Bool} {l : List Nat}

theorem maxByKey_eq_none : maxByKey key as = none ↔ as = [] := by
  cases as with
  | nil => simp [maxByKey]
  | cons a as =>
    simp only [maxByKey]
    split
    · simp
    · split <;> simp

theorem maxByKey_append_singleton (h : ∀ a ∈ as, key a ≤ key m) :
    maxByKey key (as ++ [m]) = some m := by
  induction as with
  | nil => rfl
  | cons a as ih =>
    rw [List.cons_append, maxByKey, ih fun b hb => h b (List.mem_cons_of_mem a hb)]
    exact if_pos (h a List.mem_cons_self)

theorem maxByKey_mem (h : maxByKey key as = some m) : m ∈ as ∧ ∀ a ∈ as, key a ≤ key m := by
  induction as generalizing m with
  | nil => cases h
  | cons a as ih =>
    simp only [maxByKey] at h
    split at h
    next hn =>
      cases h
      rw [maxByKey_eq_none] at hn
      subst hn
      exact ⟨List.mem_singleton_self a, fun b hb => by rw [List.mem_singleton.mp hb]⟩
    next b hb =>
    obtain ⟨hmem, hmax⟩ := ih hb
    split at h
    next hle =>
      cases h
      refine ⟨List.mem_cons_of_mem a hmem, fun x hx => ?_⟩
      rcases List.mem_cons.mp hx with rfl | hx
      · exact hle
      · exact hmax x hx
    next hlt =>
      cases h
      refine ⟨List.mem_cons_self, fun x hx => ?_⟩
      rcases List.mem_cons.mp hx with rfl | hx
      · exact le_rfl
      · exact (hmax x hx).trans (not_le.mp hlt).le

/-! ## Updating the last match -/

/-- Apply `f` to the last element that satisfies `p`, if there is one. -/
def modifyLast (p : α → Bool) (f : α → α) : List α → Option (List α)
  | [] => none
  | a :: as =>
    match modifyLast p f as with
    | some as' => some (a :: as')
    | none => if p a then some (f a :: as) else none

theorem modifyLast_eq_none : modifyLast p f as = none ↔ ∀ a ∈ as, p a = false := by
  induction as with
  | nil => simp [modifyLast]
  | cons a as ih =>
    simp only [modifyLast]
    cases h : modifyLast p f as with
    | some as' =>
      have hne : ¬ ∀ x ∈ as, p x = false := fun hall => by
        rw [ih.mpr hall] at h
        cases h
      simp only [reduceCtorEq, List.mem_cons, forall_eq_or_imp, false_iff, not_and]
      exact fun _ => hne
    | none =>
      have hall := ih.mp h
      cases hp : p a with
      | true => simp [hp]
      | false => simpa [hp] using hall

theorem modifyLast_append (hp : p a = true) : modifyLast p f (as ++ [a]) = some (as ++ [f a]) := by
  induction as with
  | nil => simp [modifyLast, hp]
  | cons b as ih => simp [modifyLast, ih]

/-! ## Neighbouring duplicates -/

/-- Drop every element equal to its predecessor. -/
def dedupAdjacent [DecidableEq α] : List α → List α
  | [] => []
  | [a] => [a]
  | a :: b :: as => if a = b then dedupAdjacent (b :: as) else a :: dedupAdjacent (b :: as)

theorem mem_dedupAdjacent [DecidableEq α] : x ∈ dedupAdjacent as ↔ x ∈ as := by
  induction as using dedupAdjacent.induct with
  | case1 => simp [dedupAdjacent]
  | case2 a => simp [dedupAdjacent]
  | case3 b as ih =>
    rw [dedupAdjacent, if_pos rfl, ih]
    simp
  | case4 a b as h ih =>
    rw [dedupAdjacent, if_neg h, List.mem_cons, ih]
    exact List.mem_cons.symm

/-- Of a sorted list without adjacent duplicates, a part in which the key
identifies elements is strictly sorted. -/
theorem filter_dedupAdjacent_sorted [DecidableEq α] (hs : as.Pairwise (fun a b => key a ≤ key b))
    (hinj : ∀ a ∈ as, ∀ b ∈ as, p a = true → key a = key b → a = b) :
    ((dedupAdjacent as).filter p).Pairwise (fun a b => key a < key b) := by
  induction as using dedupAdjacent.induct with
  | case1 => exact List.Pairwise.nil
  | case2 a => exact (List.pairwise_singleton _ a).filter p
  | case3 b as ih =>
    rw [dedupAdjacent, if_pos rfl]
    exact ih hs.of_cons fun x hx y hy =>
      hinj x (List.mem_cons_of_mem _ hx) y (List.mem_cons_of_mem _ hy)
  | case4 a b as h ih =>
    obtain ⟨ha, hs'⟩ := List.pairwise_cons.mp hs
    have hb : b ∈ b :: as := List.mem_cons_self
    have hrest := ih hs' fun x hx y hy =>
      hinj x (List.mem_cons_of_mem _ hx) y (List.mem_cons_of_mem _ hy)
    rw [dedupAdjacent, if_neg h, List.filter_cons]
    split
    next hpa =>
      refine List.pairwise_cons.mpr ⟨fun x hx => ?_, hrest⟩
      have hx' := mem_dedupAdjacent.mp (List.mem_filter.mp hx).1
      have hab : key a < key b := lt_of_le_of_ne (ha b hb) fun he =>
        h (hinj a List.mem_cons_self b (List.mem_cons_of_mem _ hb) hpa he)
      rcases List.mem_cons.mp hx' with rfl | hx'
      · exact hab
      · exact hab.trans_le ((List.pairwise_cons.mp hs').1 x hx')
    · exact hrest

/-! ## A running maximum -/

theorem le_foldl_max (h : x ∈ l ∨ x ≤ a) : x ≤ l.foldl max a := by
  induction l generalizing a with
  | nil => exact h.elim (fun h => absurd h List.not_mem_nil) id
  | cons y l ih =>
    refine ih ?_
    rcases h with h | h
    · rcases List.mem_cons.mp h with rfl | h
      · exact .inr (le_max_right a x)
      · exact .inl h
    · exact .inr (h.trans (le_max_left a y))

theorem foldl_max_lt (hl : ∀ x ∈ l, x < n) (ha : a < n) : l.foldl max a < n := by
  induction l generalizing a with
  | nil => exact ha
  | cons y l ih =>
    exact ih (fun x hx => hl x (List.mem_cons_of_mem y hx)) (max_lt ha (hl y List.mem_cons_self))

/-! ## Sorted lists -/

/-- The front of a sorted list has the elements up to its own last one. -/
theorem mem_take_iff_le (hs : l.Pairwise (· < ·)) (hk : l[j]? = some k) (n : Nat) :
    n ∈ l.take (j + 1) ↔ n ∈ l ∧ n ≤ k := by
  induction l generalizing j with
  | nil => cases hk
  | cons a l ih =>
    obtain ⟨ha, hs⟩ := List.pairwise_cons.mp hs
    rw [List.take_succ_cons, List.mem_cons, List.mem_cons]
    cases j with
    | zero =>
      cases hk
      simp only [List.take_zero, List.not_mem_nil, or_false]
      constructor
      · rintro rfl
        exact ⟨.inl rfl, le_rfl⟩
      · rintro ⟨rfl | hn, hle⟩
        · rfl
        · exact absurd (ha n hn) (not_lt.mpr hle)
    | succ j =>
      rw [List.getElem?_cons_succ] at hk
      have hak : a < k := ha k (List.mem_of_getElem? hk)
      rw [ih hs hk]
      constructor
      · rintro (rfl | ⟨hn, hle⟩)
        · exact ⟨.inl rfl, hak.le⟩
        · exact ⟨.inr hn, hle⟩
      · rintro ⟨rfl | hn, hle⟩
        · exact .inl rfl
        · exact .inr ⟨hn, hle⟩

/-- Pairing with a shorter list takes the front of the first one. -/
theorem map_fst_zip_take (as : List α) (bs : List β) :
    (as.zip bs).map Prod.fst = as.take bs.length := by
  induction as generalizing bs with
  | nil => simp
  | cons a as ih =>
    cases bs with
    | nil => rfl
    | cons b bs => rw [List.zip_cons_cons, List.map_cons, ih, List.length_cons, List.take_succ_cons]

theorem eq_of_sorted_of_mem [Std.Asymm r] (ha : as.Pairwise r) (hb : bs.Pairwise r)
    (h : ∀ x, x ∈ as ↔ x ∈ bs) : as = bs := by
  have hnd : ∀ {l : List α}, l.Pairwise r → l.Nodup := fun hl =>
    hl.imp fun {a b} hab he => by
      subst he
      exact Std.Asymm.asymm a a hab hab
  have hperm := (List.perm_ext_iff_of_nodup (hnd ha) (hnd hb)).mpr h
  exact hperm.eq_of_pairwise (fun a b _ _ hab hba => absurd hab (Std.Asymm.asymm b a hba)) ha hb

/-! ## The only element of a kind -/

/-- In a list whose first part has the property, dropping that part keeps what has it not. -/
theorem dropWhile_eq_filter (h : as.Pairwise fun a b => p b = true → p a = true) :
    as.dropWhile p = as.filter (!p ·) := by
  induction as with
  | nil => rfl
  | cons a as ih =>
    obtain ⟨ha, has⟩ := List.pairwise_cons.mp h
    cases hp : p a with
    | true => rw [List.dropWhile_cons_of_pos hp, List.filter_cons_of_neg (by simp [hp]), ih has]
    | false =>
      rw [List.dropWhile_cons_of_neg (by simp [hp])]
      refine (List.filter_eq_self.mpr fun b hb => ?_).symm
      rcases List.mem_cons.mp hb with rfl | hb
      · simp [hp]
      have := ha b hb
      cases hb' : p b
      · rfl
      · rw [this hb'] at hp
        cases hp

/-- An element that is the only one of its kind is found in every order. -/
theorem find?_eq_of_perm (h : as.Perm bs)
    (honly : as.Pairwise fun a b => ¬ (p a = true ∧ p b = true)) : as.find? p = bs.find? p := by
  have hfilter : (as.filter p).Perm (bs.filter p) := h.filter p
  have hshort : (as.filter p).Pairwise fun _ _ => False := by
    refine (List.Pairwise.filter p honly).imp_of_mem fun ha hb hnot => hnot ?_
    exact ⟨(List.mem_filter.mp ha).2, (List.mem_filter.mp hb).2⟩
  rw [← List.head?_filter, ← List.head?_filter]
  match hlist : as.filter p with
  | [] =>
    rw [hlist] at hfilter
    rw [List.nil_perm.mp hfilter]
  | [a] =>
    rw [hlist] at hfilter
    rw [List.singleton_perm.mp hfilter]
  | a :: b :: rest =>
    rw [hlist, List.pairwise_cons] at hshort
    exact (hshort.1 b List.mem_cons_self).elim
