import NodusDb.Sql.NumericOps
import Mathlib.Analysis.Real.Sqrt

/-!
# Square roots of decimals

`sqrt_to` takes the whole root of the operand with one digit more than the result has, and rounds
at that digit. The power of ten and the result scale are cast to 32 bits.

* `Numeric.sqrt_nearest`: the result is the multiple nearest to the real root, for scales of 32
  bits.
-/

namespace NodusDb.Sql.Numeric

/-- The operand times `10 ^ (2 * (rscale + 1))`, without what is behind the point. -/
def radicand (rscale : Int) (digits : Int) (scale : Nat) : Int :=
  let p := rscale + 1
  let shift := 2 * p - scale
  if 0 ≤ shift then shifted digits (shift.toNat % 2 ^ 32) else digits.tdiv (10 ^ (-shift).toNat)

/-- The square root of a non-negative value, rounded to `rscale` digits. -/
def sqrtTo (rscale : Int) : Numeric → Numeric
  | finite digits scale =>
    finite (((radicand rscale digits scale).natAbs.sqrt + 5) / 10 : Nat) (rscale.toNat % 2 ^ 32)
  | d => d

/-- The whole number `q` is nearest to `x`, and above it if there are two. -/
def NearestRoot (x : ℝ) (q : Int) : Prop := (q : ℝ) - 1 / 2 ≤ x ∧ x < q + 1 / 2

theorem nearestRoot_sqrt {n : Nat} {y : ℝ} (hy : 0 ≤ y) (hle : n ≤ y ^ 2) (hlt : y ^ 2 < n + 1) :
    NearestRoot (y / 10) ((n.sqrt + 5) / 10 : Nat) := by
  have hroot : (n.sqrt : ℝ) ≤ y := by
    refine abs_le_of_sq_le_sq' ?_ hy |>.2
    exact le_trans (by exact_mod_cast Nat.sqrt_le' n) hle
  have hroot' : y < n.sqrt + 1 := by
    refine lt_of_pow_lt_pow_left₀ 2 (by positivity) (lt_of_lt_of_le hlt ?_)
    exact_mod_cast Nat.lt_succ_sqrt' n
  generalize hq : (n.sqrt + 5) / 10 = q
  have hlo : (10 * q : ℝ) ≤ n.sqrt + 5 := by exact_mod_cast (by omega : 10 * q ≤ n.sqrt + 5)
  have hhi : (n.sqrt : ℝ) + 1 ≤ 10 * q + 5 := by
    exact_mod_cast (by omega : n.sqrt + 1 ≤ 10 * q + 5)
  rw [NearestRoot, Int.cast_natCast]
  constructor <;> linarith

theorem radicand_spec (a : Nat) {sa s : Nat} (h : 2 * (s + 1) < sa + 2 ^ 32) :
    ∃ n : Nat, radicand s a sa = n ∧ n * 10 ^ sa ≤ a * 10 ^ (2 * (s + 1)) ∧
      a * 10 ^ (2 * (s + 1)) < (n + 1) * 10 ^ sa := by
  rw [radicand]
  split
  · have hmod : (2 * ((s : Int) + 1) - sa).toNat % 2 ^ 32 = 2 * (s + 1) - sa := by
      rw [Nat.mod_eq_of_lt] <;> omega
    have hpow := pow_sub_mul_pow 10 (by omega : sa ≤ 2 * (s + 1))
    refine ⟨a * 10 ^ (2 * (s + 1) - sa), by rw [hmod, shifted]; push_cast; rfl, ?_, ?_⟩
    · rw [← hpow, mul_assoc]
    · rw [← hpow, ← mul_assoc]
      exact Nat.mul_lt_mul_of_pos_right (Nat.lt_succ_self _) (by positivity)
  have hneg : (-(2 * ((s : Int) + 1) - sa)).toNat = sa - 2 * (s + 1) := by omega
  have hpow := pow_sub_mul_pow 10 (by omega : 2 * (s + 1) ≤ sa)
  refine ⟨a / 10 ^ (sa - 2 * (s + 1)), by rw [hneg]; rfl, ?_, ?_⟩
  · rw [← hpow, ← mul_assoc]
    exact Nat.mul_le_mul_right _ (Nat.div_mul_le_self _ _)
  rw [← hpow, ← mul_assoc]
  refine Nat.mul_lt_mul_of_pos_right ?_ (by positivity)
  rw [mul_comm]
  exact Nat.lt_mul_div_succ a (by positivity)

theorem sqrt_nearest {a : Int} {sa s : Nat} (ha : 0 ≤ a) (hs : s < 2 ^ 32)
    (hshift : 2 * (s + 1) < sa + 2 ^ 32) : ∃ q, sqrtTo s (finite a sa) = finite q s ∧
      NearestRoot (√((finite a sa).value : ℝ) * 10 ^ s) q := by
  lift a to Nat using ha
  obtain ⟨n, hn, hle, hlt⟩ := radicand_spec a hshift
  have hvalue : ((finite a sa).value : ℝ) = a / 10 ^ sa := by
    rw [value]
    push_cast
    rfl
  -- The operand at the scale of its square root, with one digit more.
  have hsq : (√((finite a sa).value : ℝ) * 10 ^ (s + 1)) ^ 2 * 10 ^ sa =
      a * 10 ^ (2 * (s + 1)) := by
    rw [mul_pow, Real.sq_sqrt (hvalue ▸ by positivity), hvalue, ← pow_mul, mul_comm (s + 1)]
    field_simp
  have hten : √((finite a sa).value : ℝ) * 10 ^ s =
      √((finite a sa).value : ℝ) * 10 ^ (s + 1) / 10 := by
    rw [pow_succ]
    ring
  rw [sqrtTo, hn, Int.natAbs_natCast, Int.toNat_natCast, Nat.mod_eq_of_lt hs, hten]
  have hpos : (0 : ℝ) < 10 ^ sa := by positivity
  refine ⟨_, rfl, nearestRoot_sqrt (by positivity) ?_ ?_⟩
  · refine le_of_mul_le_mul_right ?_ hpos
    rw [hsq]
    exact_mod_cast hle
  · refine lt_of_mul_lt_mul_right ?_ hpos.le
    rw [hsq]
    exact_mod_cast hlt

theorem sqrt_nearest_two : ∃ q, sqrtTo 3 (finite 2 0) = finite q 3 ∧
    NearestRoot (√((finite 2 0).value : ℝ) * 10 ^ 3) q :=
  sqrt_nearest (by decide) (by decide) (by decide)

/-- At scale `2 ^ 31 - 1` the power of ten has no bit left, and the root of one is zero. -/
theorem sqrt_one_is_zero : ¬ ∃ q, sqrtTo (2 ^ 31 - 1) (finite 1 0) = finite q (2 ^ 31 - 1) ∧
    NearestRoot (√((finite 1 0).value : ℝ) * 10 ^ (2 ^ 31 - 1)) q := by
  rintro ⟨q, hq, -, hlt⟩
  have hzero : sqrtTo (2 ^ 31 - 1) (finite 1 0) = finite 0 (2 ^ 31 - 1) := by decide +kernel
  obtain ⟨rfl, -⟩ := finite.inj (hzero.symm.trans hq)
  generalize 2 ^ 31 - 1 = n at hlt
  have hten : (1 : ℝ) ≤ 10 ^ n := one_le_pow₀ (by norm_num)
  rw [value] at hlt
  norm_num at hlt
  linarith

end NodusDb.Sql.Numeric
