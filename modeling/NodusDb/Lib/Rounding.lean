import Mathlib.Algebra.Order.Field.Basic
import Mathlib.Data.Rat.Lemmas
import Mathlib.Tactic.Linarith
import Mathlib.Tactic.Ring

/-!
# Rounding half away from zero

A number is rounded to one whole number (`RoundsTo.unique`), found from what is cut off
(`RoundsTo.of_trunc`).
-/

/-- `q` is the whole number nearest to `x`, away from zero if `x` is halfway between two. -/
def RoundsTo (x : ℚ) (q : ℤ) : Prop := |x - q| ≤ 1 / 2 ∧ (|x - q| = 1 / 2 → |x| < |(q : ℚ)|)

theorem RoundsTo.of_lt {x : ℚ} {q : ℤ} (h : |x - q| < 1 / 2) : RoundsTo x q :=
  ⟨h.le, fun heq => absurd heq h.ne⟩

theorem RoundsTo.unique {x : ℚ} {p q : ℤ} (hp : RoundsTo x p) (hq : RoundsTo x q) : p = q := by
  wlog hle : p ≤ q generalizing p q
  · exact (this hq hp (le_of_not_ge hle)).symm
  by_contra hne
  have hsucc : (p : ℚ) + 1 ≤ q := by exact_mod_cast Int.add_one_le_iff.mpr (lt_of_le_of_ne hle hne)
  obtain ⟨-, hxp⟩ := abs_le.mp hp.1
  obtain ⟨hxq, -⟩ := abs_le.mp hq.1
  -- `x` is halfway between `p` and its successor `q`
  have hx : x = p + 1 / 2 := by linarith
  have hq' : (q : ℚ) = p + 1 := by linarith
  have hp' := hp.2 (by rw [hx, add_sub_cancel_left]; norm_num)
  have hq'' := hq.2 (by
    rw [hx, hq', show (p : ℚ) + 1 / 2 - (p + 1) = -(1 / 2) by ring, abs_neg]
    norm_num)
  rw [hq'] at hq''
  rcases le_or_gt 0 p with h0 | h0
  · have h0 : (0 : ℚ) ≤ p := by exact_mod_cast h0
    rw [hx, abs_of_nonneg (by linarith), abs_of_nonneg h0] at hp'
    linarith
  · have h0 : (p : ℚ) + 1 ≤ 0 := by exact_mod_cast h0
    rw [hx, abs_of_neg (by linarith), abs_of_nonpos h0] at hq''
    linarith

theorem RoundsTo.of_trunc {f : ℚ} {q : ℤ} (hf : |f| < 1)
    (hsign : (0 ≤ f ∧ 0 ≤ q) ∨ (f ≤ 0 ∧ q ≤ 0)) :
    RoundsTo (q + f) (if |f| < 1 / 2 then q else if f < 0 then q - 1 else q + 1) := by
  split
  next h => exact .of_lt (by rwa [add_sub_cancel_left])
  next h =>
  have hhalf := not_lt.mp h
  rcases hsign with ⟨h0, hq⟩ | ⟨h0, hq⟩
  · rw [abs_of_nonneg h0] at hf hhalf
    have hq : (0 : ℚ) ≤ q := by exact_mod_cast hq
    rw [if_neg (not_lt.mpr h0)]
    rw [RoundsTo]
    push_cast
    constructor
    · rw [abs_le]
      constructor <;> linarith
    · intro _
      rw [abs_of_nonneg (by linarith), abs_of_nonneg (by linarith)]
      linarith
  · rw [abs_of_nonpos h0] at hf hhalf
    have hq : (q : ℚ) ≤ 0 := by exact_mod_cast hq
    rw [if_pos (by linarith)]
    rw [RoundsTo]
    push_cast
    constructor
    · rw [abs_le]
      constructor <;> linarith
    · intro _
      rw [abs_of_nonpos (by linarith), abs_of_nonpos (by linarith)]
      linarith

theorem tdiv_spec (n : ℤ) {d : ℤ} (hd : d ≠ 0) :
    (n / d : ℚ) = n.tdiv d + n.tmod d / d ∧ |(n.tmod d / d : ℚ)| < 1 ∧
      ((0 ≤ (n.tmod d / d : ℚ) ∧ 0 ≤ n.tdiv d) ∨ ((n.tmod d / d : ℚ) ≤ 0 ∧ n.tdiv d ≤ 0)) := by
  have hd' : (d : ℚ) ≠ 0 := by exact_mod_cast hd
  refine ⟨?_, ?_, ?_⟩
  · have heq : (n : ℚ) = d * n.tdiv d + n.tmod d := by
      exact_mod_cast (Int.mul_tdiv_add_tmod n d).symm
    rw [div_eq_iff hd', add_mul, div_mul_cancel₀ _ hd', mul_comm (n.tdiv d : ℚ)]
    exact heq
  · have hlt : |n.tmod d| < |d| := by
      rw [Int.abs_eq_natAbs, Int.abs_eq_natAbs, Int.natAbs_tmod]
      exact_mod_cast Nat.mod_lt _ (Int.natAbs_pos.mpr hd)
    rw [abs_div, div_lt_one (abs_pos.mpr hd')]
    exact_mod_cast hlt
  rcases le_total 0 n with hn | hn
  · have hmod : (0 : ℚ) ≤ n.tmod d := by exact_mod_cast Int.tmod_nonneg d hn
    rcases le_total 0 d with h | h
    · exact .inl ⟨div_nonneg hmod (by exact_mod_cast h), Int.tdiv_nonneg hn h⟩
    exact .inr ⟨div_nonpos_of_nonneg_of_nonpos hmod (by exact_mod_cast h),
      Int.tdiv_nonpos_of_nonneg_of_nonpos hn h⟩
  · have hneg := Int.tmod_nonneg d (Int.neg_nonneg.mpr hn)
    rw [Int.neg_tmod, Int.neg_nonneg] at hneg
    have hmod : (n.tmod d : ℚ) ≤ 0 := by exact_mod_cast hneg
    rcases le_total 0 d with h | h
    · have hdiv := Int.tdiv_nonneg (Int.neg_nonneg.mpr hn) h
      rw [Int.neg_tdiv, Int.neg_nonneg] at hdiv
      exact .inr ⟨div_nonpos_of_nonpos_of_nonneg hmod (by exact_mod_cast h), hdiv⟩
    · exact .inl ⟨div_nonneg_of_nonpos hmod (by exact_mod_cast h),
        Int.tdiv_nonneg_of_nonpos_of_nonpos hn h⟩
