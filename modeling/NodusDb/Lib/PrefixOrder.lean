import Mathlib

/-!
# Words that differ at a letter

Two words compare the same way whatever follows them if they differ at a letter. Codes
whose words differ so may be put together to longer codes.
-/

variable {α β : Type} [LinearOrder α] [LinearOrder β]

/-- The words differ at a letter, and the first word has the smaller one there. -/
def Below (u v : List α) : Prop :=
  ∃ p a b s t, u = p ++ a :: s ∧ v = p ++ b :: t ∧ a < b

theorem append_lt_append_left_iff (p u v : List α) : p ++ u < p ++ v ↔ u < v := by
  induction p with
  | nil => rfl
  | cons a p ih => simp [ih]

theorem append_le_append_left_iff (p u v : List α) : p ++ u ≤ p ++ v ↔ u ≤ v := by
  rw [← not_lt, ← not_lt, append_lt_append_left_iff]

theorem le_append (u s : List α) : u ≤ u ++ s := by
  conv_lhs => rw [← List.append_nil u]
  rw [append_le_append_left_iff, ← not_lt]
  exact List.not_lt_nil s

variable {a : α} {u v : List α}

theorem below_cons {b : α} (h : a < b) (s t : List α) : Below (a :: s) (b :: t) :=
  ⟨[], a, b, s, t, rfl, rfl, h⟩

namespace Below

variable {u v : List α}

theorem append (h : Below u v) (s t : List α) : Below (u ++ s) (v ++ t) := by
  obtain ⟨p, a, b, s', t', rfl, rfl, hlt⟩ := h
  exact ⟨p, a, b, s' ++ s, t' ++ t, by simp, by simp, hlt⟩

theorem append_left (h : Below u v) (p : List α) : Below (p ++ u) (p ++ v) := by
  obtain ⟨q, a, b, s, t, rfl, rfl, hlt⟩ := h
  exact ⟨p ++ q, a, b, s, t, by simp, by simp, hlt⟩

theorem lt (h : Below u v) : u < v := by
  obtain ⟨p, a, b, s, t, rfl, rfl, hlt⟩ := h
  rw [append_lt_append_left_iff, List.cons_lt_cons_iff]
  exact .inl hlt

theorem lt_append (h : Below u v) (s t : List α) : u ++ s < v ++ t := (h.append s t).lt

theorem ne (h : Below u v) : u ≠ v := h.lt.ne

theorem flatMap {f : α → List β} (hf : ∀ a b, a < b → Below (f a) (f b)) (h : Below u v) :
    Below (u.flatMap f) (v.flatMap f) := by
  obtain ⟨p, a, b, s, t, rfl, rfl, hlt⟩ := h
  rw [List.flatMap_append, List.flatMap_append, List.flatMap_cons, List.flatMap_cons]
  exact ((hf a b hlt).append _ _).append_left _

end Below

theorem below_of_length_eq (hlength : u.length = v.length) (h : u < v) : Below u v := by
  induction u generalizing v with
  | nil =>
    rw [List.length_eq_zero_iff.mp hlength.symm] at h
    exact absurd h (lt_irrefl _)
  | cons a u ih =>
    cases v with
    | nil => cases hlength
    | cons b v =>
      rcases List.cons_lt_cons_iff.mp h with hab | ⟨rfl, huv⟩
      · exact below_cons hab u v
      · exact (ih (Nat.succ.inj hlength) huv).append_left [a]

/-- Words differ at a letter behind a letter that is below all of theirs. -/
theorem below_terminated {z : α} (hv : ∀ b ∈ v, z < b) (h : u < v) :
    Below (u ++ [z]) (v ++ [z]) := by
  induction u generalizing v with
  | nil =>
    cases v with
    | nil => exact absurd h (lt_irrefl _)
    | cons b v => exact below_cons (hv b List.mem_cons_self) _ _
  | cons a u ih =>
    cases v with
    | nil => exact absurd h (List.not_lt_nil _)
    | cons b v =>
      rcases List.cons_lt_cons_iff.mp h with hab | ⟨rfl, huv⟩
      · exact below_cons hab _ _
      · exact (ih (fun b hb => hv b (List.mem_cons_of_mem _ hb)) huv).append_left [a]

/-! ## Words with a beginning -/

theorem lt_singleton_iff : u < [a] ↔ ∀ b ∈ u.head?, b < a := by
  cases u with
  | nil => exact iff_of_true (List.nil_lt_cons a []) fun b hb => by cases hb
  | cons b u =>
    rw [List.cons_lt_cons_iff]
    constructor
    · rintro (h | ⟨_, h⟩)
      · rintro _ ⟨⟩
        exact h
      · exact absurd h (List.not_lt_nil u)
    · intro h
      exact .inl (h b rfl)

/-- The words from a word to below the word with a letter behind it: those that begin with the
word and go on with a smaller letter. -/
theorem between_iff : u ≤ v ∧ v < u ++ [a] ↔ ∃ s, v = u ++ s ∧ s < [a] := by
  constructor
  · rintro ⟨hle, hlt⟩
    induction u generalizing v with
    | nil => exact ⟨v, rfl, hlt⟩
    | cons b u ih =>
      cases v with
      | nil => exact absurd hle (not_le.mpr (List.nil_lt_cons b u))
      | cons c v =>
        rw [List.cons_append, List.cons_lt_cons_iff] at hlt
        rw [← not_lt, List.cons_lt_cons_iff, not_or, not_and] at hle
        rcases hlt with h | ⟨rfl, h⟩
        · exact absurd h hle.1
        obtain ⟨s, rfl, hs⟩ := ih (not_lt.mp (hle.2 rfl)) h
        exact ⟨s, rfl, hs⟩
  · rintro ⟨s, rfl, hs⟩
    exact ⟨le_append u s, (append_lt_append_left_iff u s [a]).mpr hs⟩
