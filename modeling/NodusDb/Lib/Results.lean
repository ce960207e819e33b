import Mathlib

/-!
# Fallible computations

A computation that fails with a text. `bind_eq_ok` and `ensure_eq_ok` take a successful one apart,
one step at a time.
-/

abbrev Result (α : Type) := Except String α

def ensure (cond : Prop) [Decidable cond] (message : String) : Result Unit :=
  if cond then .ok () else .error message

/-- The value, or an error if there is none. -/
def required {α : Type} (x : Option α) (message : String) : Result α :=
  match x with
  | some a => .ok a
  | none => .error message

namespace Result

variable {α β : Type} {f : α → Result β} {a : α} {message : String} {l : List α}

@[simp] theorem bind_eq_ok : (x >>= f) = .ok b ↔ ∃ a, x = .ok a ∧ f a = .ok b := by
  cases x with
  | error e => exact ⟨nofun, nofun⟩
  | ok a => exact ⟨fun h => ⟨a, rfl, h⟩, fun ⟨_, h, hf⟩ => by cases h; exact hf⟩

@[simp] theorem pure_eq_ok : (pure a : Result α) = .ok b ↔ a = b :=
  ⟨fun h => by cases h; rfl, fun h => congrArg pure h⟩

@[simp] theorem ensure_eq_ok {cond : Prop} [Decidable cond] {u : Unit} :
    ensure cond message = .ok u ↔ cond := by
  unfold ensure
  split
  next h => exact ⟨fun _ => h, fun _ => rfl⟩
  next h => exact ⟨nofun, fun hc => absurd hc h⟩

@[simp] theorem required_eq_ok : required x message = .ok a ↔ x = some a := by
  cases x with
  | none => exact ⟨nofun, nofun⟩
  | some b =>
    constructor
    · intro h
      cases h
      rfl
    · intro h
      cases h
      rfl

@[simp] theorem forM_eq_ok {f : α → Result Unit} {u : Unit} :
    l.forM f = .ok u ↔ ∀ a ∈ l, f a = .ok () := by
  induction l with
  | nil => exact ⟨fun _ _ ha => (nomatch ha), fun _ => rfl⟩
  | cons a l ih =>
    have hcons : (a :: l).forM f = (f a >>= fun _ => l.forM f) := rfl
    rw [hcons, bind_eq_ok, List.forall_mem_cons]
    exact ⟨fun ⟨_, ha, hl⟩ => ⟨ha, ih.mp hl⟩, fun ⟨ha, hl⟩ => ⟨(), ha, ih.mpr hl⟩⟩

theorem mem_mapM (h : l.mapM f = .ok bs) : b ∈ bs ↔ ∃ a ∈ l, f a = .ok b := by
  induction l generalizing bs with
  | nil =>
    rw [List.mapM_nil, pure_eq_ok] at h
    subst h
    simp
  | cons a l ih =>
    simp only [List.mapM_cons, bind_eq_ok, pure_eq_ok] at h
    obtain ⟨b', hb', bs', hbs', rfl⟩ := h
    rw [List.mem_cons, ih hbs', List.exists_mem_cons_iff, hb']
    constructor
    · rintro (rfl | hrest)
      · exact .inl rfl
      · exact .inr hrest
    · rintro (hsame | hrest)
      · exact .inl (Except.ok.inj hsame).symm
      · exact .inr hrest

theorem exists_ok_of_mapM (h : l.mapM f = .ok bs) (ha : a ∈ l) : ∃ b, f a = .ok b := by
  induction l generalizing bs with
  | nil => cases ha
  | cons a' l ih =>
    simp only [List.mapM_cons, bind_eq_ok] at h
    obtain ⟨b, hb, bs', hbs', -⟩ := h
    rcases List.mem_cons.mp ha with rfl | ha
    · exact ⟨b, hb⟩
    · exact ih hbs' ha

theorem mapM_map_of_ok {g : β → α} {bs : List β} (h : ∀ b ∈ bs, f (g b) = .ok b) :
    (bs.map g).mapM f = .ok bs := by
  induction bs with
  | nil => rfl
  | cons b bs ih =>
    rw [List.map_cons, List.mapM_cons, h b List.mem_cons_self,
      ih fun b hb => h b (List.mem_cons_of_mem _ hb)]
    rfl

theorem exists_ok_of_foldlM {f : β → α → Result β} {s t : β}
    (h : l.foldlM f s = .ok t) (ha : a ∈ l) : ∃ s' t', f s' a = .ok t' := by
  induction l generalizing s with
  | nil => cases ha
  | cons a' l ih =>
    rw [List.foldlM_cons, bind_eq_ok] at h
    obtain ⟨s', hs', hrest⟩ := h
    rcases List.mem_cons.mp ha with rfl | ha
    · exact ⟨s, s', hs'⟩
    · exact ih hrest ha

theorem ensure_bind {cond : Prop} [Decidable cond] {f : Unit → Result β}
    (h : cond) : (ensure cond message >>= f) = f () := by
  rw [ensure, if_pos h]
  rfl

end Result

/-- Whether a computation returns a value with a property is decided by running it. -/
instance decidableOk {ε α : Type} {x : Except ε α} {P : α → Prop} [DecidablePred P] :
    Decidable (∃ a, x = .ok a ∧ P a) :=
  match x with
  | .error _ => isFalse nofun
  | .ok a => decidable_of_iff (P a) (by simp)
