import Mathlib

/-!
# Digits of a fixed width

`digits f b w n` writes `n` with `w` digits in base `b`, the most significant first, `d` as `f d`.
With symbols in the order of the digits the lists compare as the numbers (`digits_lt_iff`), and the
number can be read back (`digits_inj`).
-/

variable {α : Type}

/-- The `w` lowest digits of `n` in base `b`, written with the symbols `f`. -/
def digits (f : Nat → α) (b : Nat) : Nat → Nat → List α
  | 0, _ => []
  | w + 1, n => f (n / b ^ w % b) :: digits f b w n

@[simp] theorem length_digits (f : Nat → α) (b w n : Nat) : (digits f b w n).length = w := by
  induction w with
  | zero => rfl
  | succ w ih => rw [digits, List.length_cons, ih]

variable {b n w : Nat} {f : Nat → α}

theorem mem_digits {a : α} (hb : 0 < b) (h : a ∈ digits f b w n) : ∃ d < b, f d = a := by
  induction w with
  | zero => cases h
  | succ w ih =>
    rw [digits, List.mem_cons] at h
    rcases h with rfl | h
    · exact ⟨_, Nat.mod_lt _ hb, rfl⟩
    · exact ih h

theorem digits_mod (f : Nat → α) {v : Nat} (n : Nat) (h : w ≤ v) :
    digits f b w (n % b ^ v) = digits f b w n := by
  induction w with
  | zero => rfl
  | succ w ih =>
    have hdvd : b ^ (w + 1) ∣ b ^ v := pow_dvd_pow b h
    have hdigit : n % b ^ v / b ^ w % b = n / b ^ w % b := by
      rw [← Nat.mod_mul_right_div_self, ← Nat.mod_mul_right_div_self, ← pow_succ,
        Nat.mod_mod_of_dvd n hdvd]
    rw [digits, digits, hdigit, ih (Nat.le_of_succ_le h)]

theorem digits_lt_iff [LinearOrder α] {m : Nat}
    (hf : ∀ d e, d < b → e < b → (f d < f e ↔ d < e)) (hn : n < b ^ w) (hm : m < b ^ w) :
    digits f b w n < digits f b w m ↔ n < m := by
  induction w generalizing n m with
  | zero =>
    rw [pow_zero, Nat.lt_one_iff] at hn hm
    simp [digits, hn, hm]
  | succ w ih =>
    have hpos : 0 < b ^ w := by
      refine Nat.pos_of_ne_zero fun h0 => ?_
      rw [pow_succ, h0, zero_mul] at hn
      exact Nat.not_lt_zero n hn
    have hlead : ∀ {k : Nat}, k < b ^ (w + 1) → k / b ^ w < b := fun hk => by
      rw [pow_succ] at hk
      exact Nat.div_lt_of_lt_mul hk
    have hinj : ∀ {d e : Nat}, d < b → e < b → (f d = f e ↔ d = e) := by
      intro d e hd he
      refine ⟨fun h => le_antisymm ?_ ?_, congrArg f⟩
      · exact not_lt.mp fun hlt => ((hf e d he hd).mpr hlt).ne h.symm
      · exact not_lt.mp fun hlt => ((hf d e hd he).mpr hlt).ne h
    rw [digits, digits, List.cons_lt_cons_iff, Nat.mod_eq_of_lt (hlead hn),
      Nat.mod_eq_of_lt (hlead hm), hf _ _ (hlead hn) (hlead hm), hinj (hlead hn) (hlead hm),
      ← digits_mod f n le_rfl, ← digits_mod f m le_rfl,
      ih (Nat.mod_lt n hpos) (Nat.mod_lt m hpos)]
    -- Compare the leading digits, then the rests.
    have hn' := Nat.div_add_mod n (b ^ w)
    have hm' := Nat.div_add_mod m (b ^ w)
    constructor
    · rintro (hlt | ⟨heq, hlt⟩)
      · exact not_le.mp fun hle => not_le.mpr hlt (Nat.div_le_div_right hle)
      · rw [heq] at hn'
        omega
    · intro hlt
      rcases (Nat.div_le_div_right hlt.le : n / b ^ w ≤ m / b ^ w).lt_or_eq with h | h
      · exact .inl h
      refine .inr ⟨h, ?_⟩
      rw [h] at hn'
      omega

theorem digits_inj [LinearOrder α] {m : Nat}
    (hf : ∀ d e, d < b → e < b → (f d < f e ↔ d < e)) (hn : n < b ^ w) (hm : m < b ^ w)
    (h : digits f b w n = digits f b w m) : n = m := by
  refine le_antisymm ?_ ?_
  · exact not_lt.mp fun hlt => ((digits_lt_iff hf hm hn).mpr hlt).ne h.symm
  · exact not_lt.mp fun hlt => ((digits_lt_iff hf hn hm).mpr hlt).ne h

def undigits (g : α → Nat) (b : Nat) (l : List α) : Nat := l.foldl (fun n a => n * b + g a) 0

theorem undigits_digits {g : α → Nat} (hg : ∀ d < b, g (f d) = d)
    (hb : 0 < b) (w n : Nat) : undigits g b (digits f b w n) = n % b ^ w := by
  -- The sum so far is shifted by the digits still to come.
  have hshift : ∀ w acc, (digits f b w n).foldl (fun n a => n * b + g a) acc =
      acc * b ^ w + n % b ^ w := by
    intro w
    induction w with
    | zero => intro acc; simp [digits, Nat.mod_one]
    | succ w ih =>
      intro acc
      rw [digits, List.foldl_cons, ih, hg _ (Nat.mod_lt _ hb)]
      have hsplit : n % b ^ (w + 1) = b ^ w * (n / b ^ w % b) + n % b ^ w := by
        rw [pow_succ, Nat.mod_mul, add_comm]
      rw [hsplit, pow_succ]
      ring
  rw [undigits, hshift, zero_mul, zero_add]
