import NodusDb.Lib.Comparison

/-!
# Extremes of lists

The least element of a list under a comparison, chosen by going through the list once, and
the ends of a sorted list.
-/

section

open List hiding take

variable {α β : Type}

/-- Take an element instead of the best one so far, or keep that. -/
def pick (take : α → α → Bool) (chosen : Option α) (a : α) : Option α :=
  some (chosen.elim a fun b => if take a b then a else b)

/-- Go through a list and keep the best element. -/
def best (take : α → α → Bool) (l : List α) : Option α := l.foldl (pick take) none

/-- An element is taken only if it is not above the best one so far, and left only if it is not
below. -/
structure TakesBest (cmp : α → α → Ordering) (take : α → α → Bool) (P : α → Prop) : Prop where
  taken : ∀ a b, P a → P b → take a b = true → cmp a b ≠ .gt
  left : ∀ a b, P a → P b → take a b = false → cmp b a ≠ .gt

theorem pick_some (take : α → α → Bool) (a b : α) :
    pick take (some b) a = some (if take a b then a else b) := rfl

section Spec

variable {cmp : α → α → Ordering} {take : α → α → Bool} {P : α → Prop}
  (hcmp : Comparison cmp P) (htake : TakesBest cmp take P)
include hcmp htake

theorem foldl_pick {l : List α} {b : α} (hl : ∀ a ∈ l, P a) (hb : P b) :
    ∃ c, l.foldl (pick take) (some b) = some c ∧ (c = b ∨ c ∈ l) ∧ P c ∧ cmp c b ≠ .gt ∧
      ∀ a ∈ l, cmp c a ≠ .gt := by
  induction l generalizing b with
  | nil =>
    refine ⟨b, rfl, .inl rfl, hb, ?_, fun a ha => by cases ha⟩
    rw [hcmp.refl hb]
    decide
  | cons a l ih =>
    rw [forall_mem_cons] at hl
    obtain ⟨ha, hl⟩ := hl
    rw [foldl_cons, pick_some]
    cases htaken : take a b with
    | true =>
      obtain ⟨c, hc, hmem, hP, hle, hall⟩ := ih hl ha
      refine ⟨c, hc, .inr ?_, hP, ?_, forall_mem_cons.mpr ⟨hle, hall⟩⟩
      · rcases hmem with rfl | hmem
        · exact mem_cons_self
        · exact mem_cons_of_mem _ hmem
      · exact hcmp.trans c a b hP ha hb hle (htake.taken a b ha hb htaken)
    | false =>
      obtain ⟨c, hc, hmem, hP, hle, hall⟩ := ih hl hb
      refine ⟨c, hc, hmem.imp id (mem_cons_of_mem _), hP, hle, ?_⟩
      refine forall_mem_cons.mpr ⟨?_, hall⟩
      exact hcmp.trans c b a hP hb ha hle (htake.left a b ha hb htaken)

/-- The chosen element is in the list, and no element is below it. -/
theorem best_spec (hl : ∀ a ∈ l, P a) (hne : l ≠ []) :
    ∃ c ∈ l, best take l = some c ∧ ∀ a ∈ l, cmp c a ≠ .gt := by
  cases l with
  | nil => exact absurd rfl hne
  | cons b l =>
    rw [forall_mem_cons] at hl
    obtain ⟨c, hc, hmem, _, hle, hall⟩ := foldl_pick hcmp htake hl.2 hl.1
    refine ⟨c, ?_, hc, forall_mem_cons.mpr ⟨hle, hall⟩⟩
    rcases hmem with rfl | hmem
    · exact mem_cons_self
    · exact mem_cons_of_mem _ hmem

end Spec

theorem foldl_pick_last (h : l.foldl (pick take) (some b) = some c) :
    ∃ init tail, b :: l = init ++ c :: tail ∧ ∀ a ∈ tail, take a c = false := by
  induction l generalizing b with
  | nil =>
    cases h
    exact ⟨[], [], rfl, fun a ha => by cases ha⟩
  | cons a l ih =>
    rw [foldl_cons, pick_some] at h
    cases htaken : take a b with
    | true =>
      rw [if_pos htaken] at h
      obtain ⟨init, tail, hsplit, hleft⟩ := ih h
      exact ⟨b :: init, tail, by rw [hsplit, cons_append], hleft⟩
    | false =>
      rw [if_neg (by rw [htaken]; decide)] at h
      obtain ⟨init, tail, hsplit, hleft⟩ := ih h
      cases init with
      | nil =>
        cases hsplit
        exact ⟨[], a :: l, rfl, forall_mem_cons.mpr ⟨htaken, hleft⟩⟩
      | cons b' init =>
        cases hsplit
        exact ⟨b :: a :: init, tail, rfl, hleft⟩

theorem best_last (h : best take l = some c) :
    ∃ init tail, l = init ++ c :: tail ∧ ∀ a ∈ tail, take a c = false := by
  cases l with
  | nil => cases h
  | cons b l => exact foldl_pick_last h

theorem best_map (take : α → α → Bool) (f : β → α) (l : List β) :
    best take (l.map f) = (best (fun a b => take (f a) (f b)) l).map f := by
  have hfold : ∀ (l : List β) (chosen : Option β), (l.map f).foldl (pick take) (chosen.map f) =
      (l.foldl (pick fun a b => take (f a) (f b)) chosen).map f := by
    intro l
    induction l with
    | nil => exact fun _ => rfl
    | cons a l ih =>
      intro chosen
      rw [map_cons, foldl_cons, foldl_cons, ← ih]
      congr 1
      cases chosen with
      | none => rfl
      | some b =>
        rw [Option.map_some, pick_some, pick_some, Option.map_some]
        split <;> rfl
  exact hfold l none

section Ends

variable {f : α → Option β} {l : List α}

theorem head?_filterMap_of_isSome (h : ∀ a ∈ l, (f a).isSome = true) :
    (l.filterMap f).head? = l.head?.bind f := by
  cases l with
  | nil => rfl
  | cons a l =>
    obtain ⟨b, hb⟩ := Option.isSome_iff_exists.mp (h a mem_cons_self)
    rw [filterMap_cons_some hb, head?_cons, head?_cons, Option.bind_some, hb]

theorem getLast?_filterMap_of_isSome (h : ∀ a ∈ l, (f a).isSome = true) :
    (l.filterMap f).getLast? = l.getLast?.bind f := by
  rcases eq_nil_or_concat l with rfl | ⟨init, a, rfl⟩
  · rfl
  rw [concat_eq_append] at h ⊢
  obtain ⟨b, hb⟩ := Option.isSome_iff_exists.mp
    (h a (mem_append_right _ (mem_singleton_self a)))
  rw [filterMap_append, filterMap_cons_some hb, filterMap_nil,
    getLast?_concat, getLast?_concat, Option.bind_some, hb]

end Ends

section Sorted

variable [LinearOrder α] {l : List α} {a : α}

theorem head?_eq_some_iff (hl : l.Pairwise (· < ·)) :
    l.head? = some a ↔ a ∈ l ∧ ∀ b ∈ l, a ≤ b := by
  cases l with
  | nil => simp
  | cons c l =>
    rw [pairwise_cons] at hl
    rw [head?_cons, Option.some.injEq]
    constructor
    · rintro rfl
      refine ⟨mem_cons_self, fun b hb => ?_⟩
      rcases mem_cons.mp hb with rfl | hb
      · exact le_rfl
      · exact (hl.1 b hb).le
    · rintro ⟨ha, hle⟩
      rcases mem_cons.mp ha with rfl | ha
      · rfl
      · exact absurd (hl.1 a ha) (not_lt.mpr (hle c mem_cons_self))

theorem getLast?_eq_some_iff (hl : l.Pairwise (· < ·)) :
    l.getLast? = some a ↔ a ∈ l ∧ ∀ b ∈ l, b ≤ a := by
  rcases eq_nil_or_concat l with rfl | ⟨init, c, rfl⟩
  · simp
  rw [concat_eq_append, pairwise_append] at hl
  rw [concat_eq_append, getLast?_concat, Option.some.injEq]
  have hlast : ∀ b ∈ init, b < c := fun b hb => hl.2.2 b hb c (mem_singleton_self c)
  constructor
  · rintro rfl
    refine ⟨mem_append_right _ (mem_singleton_self c), fun b hb => ?_⟩
    rcases mem_append.mp hb with hb | hb
    · exact (hlast b hb).le
    · exact (mem_singleton.mp hb).le
  · rintro ⟨ha, hle⟩
    rcases mem_append.mp ha with ha | ha
    · exact absurd (hlast a ha)
        (not_lt.mpr (hle c (mem_append_right _ (mem_singleton_self c))))
    · exact (mem_singleton.mp ha).symm

end Sorted

end
