import Mathlib

/-!
# Comparison functions

A function into `Ordering` that orders the elements with a property. Elements that are
different may compare equal, so this is a total preorder and no linear order.
-/

variable {α β : Type}

/-- The function orders the elements with the property. -/
structure Comparison (cmp : α → α → Ordering) (P : α → Prop) : Prop where
  swap : ∀ a b, P a → P b → cmp b a = (cmp a b).swap
  trans : ∀ a b c, P a → P b → P c → cmp a b ≠ .gt → cmp b c ≠ .gt → cmp a c ≠ .gt

theorem then_ne_gt_iff {x y : Ordering} : x.then y ≠ .gt ↔ x = .lt ∨ x = .eq ∧ y ≠ .gt := by
  cases x <;> cases y <;> decide

namespace Comparison

theorem of_key [LinearOrder β] {cmp : α → α → Ordering} {P : α → Prop} (key : α → β)
    (hlt : ∀ a b, P a → P b → (cmp a b = .lt ↔ key a < key b))
    (hgt : ∀ a b, P a → P b → (cmp a b = .gt ↔ key b < key a)) : Comparison cmp P := by
  have hle : ∀ a b, P a → P b → (cmp a b ≠ .gt ↔ key a ≤ key b) := fun a b ha hb =>
    (hgt a b ha hb).not.trans not_lt
  constructor
  · intro a b ha hb
    cases hcmp : cmp a b with
    | lt => exact (hgt b a hb ha).mpr ((hlt a b ha hb).mp hcmp)
    | gt => exact (hlt b a hb ha).mpr ((hgt a b ha hb).mp hcmp)
    | eq =>
      have h1 : ¬ cmp b a = .lt := by
        rw [hlt b a hb ha, ← hgt a b ha hb, hcmp]
        decide
      have h2 : ¬ cmp b a = .gt := by
        rw [hgt b a hb ha, ← hlt a b ha hb, hcmp]
        decide
      revert h1 h2
      cases cmp b a <;> decide
  · intro a b c ha hb hc hab hbc
    rw [hle a b ha hb] at hab
    rw [hle b c hb hc] at hbc
    rw [hle a c ha hc]
    exact hab.trans hbc

variable {cmp : α → α → Ordering} {P Q : α → Prop} (h : Comparison cmp P) {a b c : α}
include h

theorem mono (hQ : ∀ a, Q a → P a) : Comparison cmp Q :=
  ⟨fun a b ha hb => h.swap a b (hQ a ha) (hQ b hb),
    fun a b c ha hb hc => h.trans a b c (hQ a ha) (hQ b hb) (hQ c hc)⟩

theorem flip : Comparison (fun a b => cmp b a) P :=
  ⟨fun a b ha hb => h.swap b a hb ha, fun a b c ha hb hc hab hbc => h.trans c b a hc hb ha hbc hab⟩

section

variable (ha : P a)
include ha

theorem refl : cmp a a = .eq := by
  have hswap := h.swap a a ha ha
  cases hself : cmp a a with
  | eq => rfl
  | lt | gt => rw [hself] at hswap; cases hswap

theorem gt_iff_lt (hb : P b) : cmp a b = .gt ↔ cmp b a = .lt := by
  rw [h.swap a b ha hb]
  cases cmp a b <;> decide

theorem eq_comm (hb : P b) : cmp a b = .eq ↔ cmp b a = .eq := by
  rw [h.swap a b ha hb]
  cases cmp a b <;> decide

theorem eq_of_le_of_le (hb : P b) (hab : cmp a b ≠ .gt) (hba : cmp b a ≠ .gt) : cmp a b = .eq := by
  rw [h.swap a b ha hb] at hba
  revert hab hba
  cases cmp a b <;> decide

/-- Elements that compare equal compare in the same way with every other. -/
theorem congr_left (hb : P b) (hc : P c) (heq : cmp a b = .eq) : cmp a c = cmp b c := by
  have hab : cmp a b ≠ .gt := by rw [heq]; decide
  have hba : cmp b a ≠ .gt := by rw [(h.eq_comm ha hb).mp heq]; decide
  have h1 := h.trans a b c ha hb hc hab
  have h2 := h.trans b a c hb ha hc hba
  have h3 := fun hca => h.trans c a b hc ha hb hca hab
  have h4 := fun hcb => h.trans c b a hc hb ha hcb hba
  rw [h.swap a c ha hc, h.swap b c hb hc] at h3 h4
  revert h1 h2 h3 h4
  cases cmp a c <;> cases cmp b c <;> decide

theorem congr_right (hb : P b) (hc : P c) (heq : cmp a b = .eq) : cmp c a = cmp c b := by
  rw [h.swap a c ha hc, h.swap b c hb hc, h.congr_left ha hb hc heq]

theorem lt_of_lt_of_le (hb : P b) (hc : P c) (hab : cmp a b = .lt) (hbc : cmp b c ≠ .gt) :
    cmp a c = .lt := by
  have hac : cmp a c ≠ .gt := h.trans a b c ha hb hc (by rw [hab]; decide) hbc
  cases hcmp : cmp a c with
  | lt => rfl
  | gt => exact absurd hcmp hac
  | eq =>
    rw [h.congr_left ha hc hb hcmp] at hab
    exact absurd ((h.gt_iff_lt hb hc).mpr hab) hbc

theorem lt_of_le_of_lt (hb : P b) (hc : P c) (hab : cmp a b ≠ .gt) (hbc : cmp b c = .lt) :
    cmp a c = .lt := by
  have hac : cmp a c ≠ .gt := h.trans a b c ha hb hc hab (by rw [hbc]; decide)
  cases hcmp : cmp a c with
  | lt => rfl
  | gt => exact absurd hcmp hac
  | eq =>
    rw [← h.congr_right ha hc hb hcmp] at hbc
    exact absurd ((h.gt_iff_lt ha hb).mpr hbc) hab

theorem then_trans (hb : P b) (hc : P c) {x y z : Ordering} (hab : (cmp a b).then x ≠ .gt)
    (hbc : (cmp b c).then y ≠ .gt) (hrest : x ≠ .gt → y ≠ .gt → z ≠ .gt) :
    (cmp a c).then z ≠ .gt := by
  rw [then_ne_gt_iff] at *
  rcases hab with hab | ⟨hab, hx⟩
  · refine .inl (h.lt_of_lt_of_le ha hb hc hab ?_)
    rcases hbc with hbc | ⟨hbc, _⟩ <;> rw [hbc] <;> decide
  · rw [h.congr_left ha hb hc hab]
    exact hbc.imp id fun hbc => ⟨hbc.1, hrest hx hbc.2⟩

end

theorem prod {cmp' : β → β → Ordering} {R : β → Prop} (h' : Comparison cmp' R) :
    Comparison (fun x y : α × β => (cmp x.1 y.1).then (cmp' x.2 y.2))
      (fun x => P x.1 ∧ R x.2) := by
  constructor
  · rintro ⟨a, a'⟩ ⟨b, b'⟩ ⟨ha, ha'⟩ ⟨hb, hb'⟩
    show (cmp b a).then (cmp' b' a') = ((cmp a b).then (cmp' a' b')).swap
    rw [h.swap a b ha hb, h'.swap a' b' ha' hb', Ordering.swap_then]
  · rintro ⟨a, a'⟩ ⟨b, b'⟩ ⟨c, c'⟩ ⟨ha, ha'⟩ ⟨hb, hb'⟩ ⟨hc, hc'⟩ hab hbc
    exact h.then_trans ha hb hc hab hbc (h'.trans a' b' c' ha' hb' hc')

/-- Lists in which the first elements that differ decide, and else the lengths. -/
theorem list : Comparison (List.compareLex cmp) (fun l => ∀ a ∈ l, P a) := by
  constructor
  · intro l
    induction l with
    | nil =>
      intro l' _ _
      cases l' with
      | nil => rfl
      | cons b l' => rfl
    | cons a l ih =>
      intro l' hl hl'
      cases l' with
      | nil => rfl
      | cons b l' =>
        rw [List.forall_mem_cons] at hl hl'
        rw [List.compareLex_cons_cons, List.compareLex_cons_cons, h.swap a b hl.1 hl'.1,
          ih l' hl.2 hl'.2, Ordering.swap_then]
  · intro l
    induction l with
    | nil =>
      intro l₁ l₂ _ _ _ _ _
      cases l₂ with
      | nil | cons c l₂ => exact fun hgt => by cases hgt
    | cons a l ih =>
      intro l₁ l₂ hl hl₁ hl₂ h₁ h₂
      cases l₁ with
      | nil => exact absurd rfl h₁
      | cons b l₁ =>
        cases l₂ with
        | nil => exact absurd rfl h₂
        | cons c l₂ =>
          rw [List.forall_mem_cons] at hl hl₁ hl₂
          rw [List.compareLex_cons_cons] at h₁ h₂ ⊢
          exact h.then_trans hl.1 hl₁.1 hl₂.1 h₁ h₂ (ih l₁ l₂ hl.2 hl₁.2 hl₂.2)

theorem comap (f : β → α) : Comparison (fun a b => cmp (f a) (f b)) (fun b => P (f b)) :=
  ⟨fun a b => h.swap (f a) (f b), fun a b c => h.trans (f a) (f b) (f c)⟩

theorem image {cmp' : β → β → Ordering} {f : α → β} {R : β → Prop}
    (hf : ∀ a b, cmp' (f a) (f b) = cmp a b) (hR : ∀ b, R b → ∃ a, P a ∧ b = f a) :
    Comparison cmp' R := by
  constructor
  · intro b b' hb hb'
    obtain ⟨a, ha, rfl⟩ := hR b hb
    obtain ⟨a', ha', rfl⟩ := hR b' hb'
    rw [hf, hf, h.swap a a' ha ha']
  · intro b b' b'' hb hb' hb''
    obtain ⟨a, ha, rfl⟩ := hR b hb
    obtain ⟨a', ha', rfl⟩ := hR b' hb'
    obtain ⟨a'', ha'', rfl⟩ := hR b'' hb''
    rw [hf, hf, hf]
    exact h.trans a a' a'' ha ha' ha''

theorem with_bot {bot : α} (hself : cmp bot bot = .eq) (hbelow : ∀ a, P a → cmp bot a = .lt)
    (habove : ∀ a, P a → cmp a bot = .gt) : Comparison cmp (fun a => a = bot ∨ P a) := by
  constructor
  · rintro a b (rfl | ha) (rfl | hb)
    · rw [hself]; rfl
    · rw [hbelow b hb, habove b hb]; rfl
    · rw [hbelow a ha, habove a ha]; rfl
    · exact h.swap a b ha hb
  · rintro a b c (rfl | ha) (rfl | hb) (rfl | hc) hab hbc
    · exact hbc
    · exact hbc
    · exact absurd (habove b hb) hbc
    · rw [hbelow c hc]; decide
    · exact absurd (habove a ha) hab
    · exact absurd (habove a ha) hab
    · exact absurd (habove b hb) hbc
    · exact h.trans a b c ha hb hc hab hbc

end Comparison

/-! ## Where an element stands among others -/

/-- An element, of whatever kind, stands somewhere among the elements with the property: it
is compared in the same way with equal ones, and is below what is above one it does not
exceed. -/
structure Position (cmp : α → α → Ordering) (P : α → Prop) (v : α) : Prop where
  congr : ∀ x y, P x → P y → cmp x y = .eq → cmp v x = cmp v y
  below : ∀ x y, P x → P y → cmp x y = .gt → cmp v y ≠ .gt → cmp v x = .lt

namespace Position

variable {cmp : α → α → Ordering} {P : α → Prop} {v : α}

/-- The elements are made of what is compared with it by keys in their order. -/
theorem of_key {γ : Type} {cmp' : β → β → Ordering} {R : β → Prop} (h : Comparison cmp' R) (b : β)
    (make : γ → α) (key : γ → β) (hb : R b) (hkey : ∀ c, R (key c))
    (hmake : ∀ x, P x → ∃ c, x = make c) (hv : ∀ c, cmp v (make c) = cmp' b (key c))
    (horder : ∀ c d, cmp (make c) (make d) = cmp' (key c) (key d)) : Position cmp P v := by
  constructor
  · intro x y hx hy heq
    obtain ⟨c, rfl⟩ := hmake x hx
    obtain ⟨d, rfl⟩ := hmake y hy
    rw [horder] at heq
    rw [hv, hv, h.congr_right (hkey c) (hkey d) hb heq]
  · intro x y hx hy hgt hle
    obtain ⟨c, rfl⟩ := hmake x hx
    obtain ⟨d, rfl⟩ := hmake y hy
    rw [horder, h.gt_iff_lt (hkey c) (hkey d)] at hgt
    rw [hv] at hle ⊢
    exact h.lt_of_le_of_lt hb (hkey d) (hkey c) hle hgt

theorem of_const {o : Ordering} (ho : o ≠ .eq) (hv : ∀ x, P x → cmp v x = o) :
    Position cmp P v := by
  constructor
  · intro x y hx hy _
    rw [hv x hx, hv y hy]
  · intro x y hx hy _ hle
    rw [hv y hy] at hle
    rw [hv x hx]
    revert ho hle
    cases o <;> decide

theorem eq_of_eq (h : Position cmp P v) (hcmp : Comparison cmp P) {x y : α} (hx : P x) (hy : P y)
    (hvx : cmp v x = .eq) (hvy : cmp v y = .eq) : cmp x y = .eq := by
  cases horder : cmp x y with
  | eq => rfl
  | gt =>
    have hlt := h.below x y hx hy horder (by rw [hvy]; decide)
    rw [hvx] at hlt
    cases hlt
  | lt =>
    have hlt := h.below y x hy hx ((hcmp.gt_iff_lt hy hx).mpr horder) (by rw [hvx]; decide)
    rw [hvy] at hlt
    cases hlt

end Position
