import NodusDb.Lib.Results
import NodusDb.Lib.Rounding
import NodusDb.Sql.PlanTypes
import Mathlib.Tactic.LinearCombination

/-!
# Products and quotients of decimals

`product` keeps all digits, and rounds to 16383 places with `round` if there are more. `round`
takes at most 2000 places. `div_rounded` casts the result scale and the power of ten to 32 bits.

* `Numeric.product_rounded`: when the product is exact or correctly rounded.
* `Numeric.division_laws`: what the quotients and the remainder are, for scales of 32 bits.
-/

namespace NodusDb.Sql

open Result

/-! ## Rounding -/

def maxScale : Nat := 16383

def maxResultScale : Nat := 2000

/-- `n / d`, rounded half away from zero. -/
def divRound (n d : Int) : Int :=
  let q := n.tdiv d
  let r := n.tmod d
  if r = 0 ∨ 2 * |r| < |d| then q
  else if decide (n < 0) ≠ decide (d < 0) then q - 1
  else q + 1

def shifted (m : Int) (n : Nat) : Int := m * 10 ^ n

theorem tmod_neg_iff {n d : Int} (hr : n.tmod d ≠ 0) : n.tmod d < 0 ↔ n < 0 := by
  have hsign := Int.sign_tmod n d
  rw [if_neg fun h => hr (Int.tmod_eq_zero_of_dvd h)] at hsign
  rw [← Int.sign_eq_neg_one_iff_neg, hsign, Int.sign_eq_neg_one_iff_neg]

theorem divRound_spec (n : Int) {d : Int} (hd : d ≠ 0) : RoundsTo (n / d) (divRound n d) := by
  have hd' : (d : ℚ) ≠ 0 := by exact_mod_cast hd
  obtain ⟨heq, hlt, hsign⟩ := tdiv_spec n hd
  have hround := RoundsTo.of_trunc hlt hsign
  rw [← heq] at hround
  have hhalf : |(n.tmod d / d : ℚ)| < 1 / 2 ↔ 2 * |n.tmod d| < |d| := by
    rw [abs_div, div_lt_div_iff₀ (abs_pos.mpr hd') two_pos, one_mul, mul_comm]
    exact_mod_cast Iff.rfl
  simp only [hhalf] at hround
  rw [divRound]
  by_cases hr : n.tmod d = 0
  · rw [hr, abs_zero, mul_zero, if_pos (abs_pos.mpr hd)] at hround
    rwa [if_pos (.inl hr)]
  have hneg : (n.tmod d / d : ℚ) < 0 ↔ decide (n < 0) ≠ decide (d < 0) := by
    rw [div_neg_iff, Int.cast_pos, Int.cast_pos, Int.cast_lt_zero, Int.cast_lt_zero, ne_eq,
      decide_eq_decide, ← tmod_neg_iff hr]
    omega
  simp only [hneg] at hround
  simpa only [hr, false_or] using hround

namespace Numeric

def signum : Numeric → Int
  | finite digits _ => digits.sign
  | infinity => 1
  | negInfinity => -1
  | nan => 0

def isZero : Numeric → Bool
  | finite digits _ => digits = 0
  | _ => false

def scale : Numeric → Nat
  | finite _ scale => scale
  | _ => 0

def roundWith (round : Bool) (scale : Int) : Numeric → Numeric
  | finite digits s =>
    let scale := max (-(maxResultScale : Int)) (min scale maxResultScale)
    let target := (max scale 0).toNat
    if s ≤ scale then finite (shifted digits (target - s)) target
    else
      let unit := 10 ^ (s - scale).toNat
      let q := if round then divRound digits unit else digits.tdiv unit
      if 0 ≤ scale then finite q target else finite (shifted q (-scale).toNat) 0
  | d => d

/-- Rounded half away from zero to `scale` digits after the decimal point. -/
def round (d : Numeric) (scale : Int) : Numeric := d.roundWith true scale

def product : Numeric → Numeric → Numeric
  | nan, _ | _, nan => nan
  | finite a sa, finite b sb =>
    let product := finite (a * b) (sa + sb)
    if maxScale < sa + sb then product.round maxScale else product
  | x, y =>
    match x.signum * y.signum with
    | 0 => nan
    | 1 => infinity
    | _ => negInfinity

/-- Division with an infinite or NaN operand. -/
def specialDiv : Numeric → Numeric → Result Numeric
  | nan, _ | _, nan => pure nan
  | infinity, finite b _ => do
    ensure (b ≠ 0) "division by zero"
    pure (if b.sign = 1 then infinity else negInfinity)
  | negInfinity, finite b _ => do
    ensure (b ≠ 0) "division by zero"
    pure (if b.sign = -1 then infinity else negInfinity)
  | infinity, _ | negInfinity, _ => pure nan
  | finite _ _, _ => pure (finite 0 0)

/-- The quotient rounded half away from zero to `rscale` digits; the casts keep 32 bits. -/
def divRounded (rscale : Int) : Numeric → Numeric → Result Numeric
  | finite a sa, finite b sb => do
    ensure (b ≠ 0) "division by zero"
    let k := rscale + sb - sa
    let q := if 0 ≤ k then divRound (shifted a (k.toNat % 2 ^ 32)) b
      else divRound a (shifted b ((-k).toNat % 2 ^ 32))
    pure (finite q (rscale.toNat % 2 ^ 32))
  | x, y => x.specialDiv y

/-- The two finite values at a common scale. -/
def aligned (a : Int) (sa : Nat) (b : Int) (sb : Nat) : Int × Int × Nat :=
  match compare sa sb with
  | .eq => (a, b, sa)
  | .lt => (shifted a (sb - sa), b, sb)
  | .gt => (a, shifted b (sa - sb), sa)

/-- The quotient truncated to a whole number. -/
def divTrunc : Numeric → Numeric → Result Numeric
  | finite a sa, finite b sb => do
    ensure (b ≠ 0) "division by zero"
    let (a, b, _) := aligned a sa b sb
    pure (finite (a.tdiv b) 0)
  | x, y => x.specialDiv y

def checkedRem : Numeric → Numeric → Result Numeric
  | nan, _ | _, nan => pure nan
  | infinity, y | negInfinity, y => do
    ensure (!y.isZero) "division by zero"
    pure nan
  | finite a sa, finite b sb => do
    ensure (b ≠ 0) "division by zero"
    let (a, b, scale) := aligned a sa b sb
    pure (finite (a.tmod b) scale)
  | x, _ => pure x

/-! ## Values -/

def value : Numeric → ℚ
  | finite digits scale => digits / 10 ^ scale
  | _ => 0

end Numeric

/-- `v` is the multiple of `10 ^ -s` nearest to `x`, ties away from zero. -/
def NearestMultiple (s : Nat) (x v : ℚ) : Prop :=
  ∃ q : Int, v = q / 10 ^ s ∧ RoundsTo (x * 10 ^ s) q

theorem eq_of_div_pow_eq {m n : Int} (h : (m / 10 ^ lo : ℚ) = n / 10 ^ (lo + k + 1)) :
    n = m * 10 ^ (k + 1) := by
  rw [add_assoc, pow_add] at h
  field_simp at h
  exact_mod_cast h.symm

theorem NearestMultiple.coarser {x : ℚ} {m q : Int} (hlt : lo < hi)
    (h : NearestMultiple hi x (m / 10 ^ lo)) (hq : RoundsTo (x * 10 ^ lo) q) : m = q := by
  obtain ⟨n, hn, hround, -⟩ := h
  obtain ⟨k, rfl⟩ := Nat.exists_eq_add_of_lt hlt
  have hpow : (10 : ℚ) ^ (lo + k + 1) = 10 ^ lo * 10 ^ (k + 1) := by rw [add_assoc, pow_add]
  rw [eq_of_div_pow_eq hn, Int.cast_mul, Int.cast_pow, Int.cast_ofNat, hpow, ← mul_assoc,
    ← sub_mul, abs_mul, abs_of_pos (by positivity : (0 : ℚ) < 10 ^ (k + 1))] at hround
  refine RoundsTo.unique (.of_lt ?_) hq
  have hten : (10 : ℚ) ≤ 10 ^ (k + 1) := le_self_pow₀ (by norm_num) (by omega)
  nlinarith [abs_nonneg (x * 10 ^ lo - m)]

namespace Numeric

theorem round_maxScale (digits : Int) (h : maxScale < s) : (finite digits s).round maxScale =
    finite (divRound digits (10 ^ (s - maxResultScale))) maxResultScale := by
  have h : 16383 < s := h
  have hclamp : max (-(maxResultScale : Int)) (min maxScale maxResultScale) = 2000 := by decide
  have hunit : ((s : Int) - 2000).toNat = s - maxResultScale := by rw [maxResultScale]; omega
  rw [round, roundWith, hclamp, if_neg (by omega), hunit]
  rfl

/-- The product is exact, or the nearest multiple of the smallest unit. -/
def RoundedProduct (x y : Numeric) : Prop :=
  (x.scale + y.scale ≤ maxScale → (x.product y).value = x.value * y.value) ∧
  (maxScale < x.scale + y.scale → NearestMultiple maxScale (x.value * y.value) (x.product y).value)

theorem product_of_lt (a b : Int) (h : maxScale < sa + sb) : ∃ q : Int,
    ((finite a sa).product (finite b sb)).value = q / 10 ^ maxResultScale ∧
    RoundsTo ((finite a sa).value * (finite b sb).value * 10 ^ maxResultScale) q := by
  refine ⟨divRound (a * b) (10 ^ (sa + sb - maxResultScale)), ?_, ?_⟩
  · rw [product, if_pos h, round_maxScale _ h, value]
  have hround := divRound_spec (a * b) (d := 10 ^ (sa + sb - maxResultScale)) (by positivity)
  convert hround using 1
  have hle : maxResultScale ≤ sa + sb := (by decide : maxResultScale ≤ maxScale).trans h.le
  have hpow : (10 : ℚ) ^ sa * 10 ^ sb =
      10 ^ (sa + sb - maxResultScale) * 10 ^ maxResultScale := by
    rw [← pow_add, ← pow_add, Nat.sub_add_cancel hle]
  rw [value, value, div_mul_div_comm, hpow]
  push_cast
  rw [← div_div, div_mul_cancel₀ _ (by positivity)]

theorem product_rounded (a b : Int) (sa sb : Nat) :
    RoundedProduct (finite a sa) (finite b sb) ↔ sa + sb ≤ maxScale ∨ ∃ m : Int,
      NearestMultiple maxScale ((finite a sa).value * (finite b sb).value)
        (m / 10 ^ maxResultScale) := by
  rcases le_or_gt (sa + sb) maxScale with h | h
  · refine iff_of_true ⟨fun _ => ?_, fun hlt => absurd hlt (not_lt.mpr h)⟩ (.inl h)
    rw [product, if_neg (not_lt.mpr h), value, value, value, div_mul_div_comm, pow_add]
    push_cast
    rfl
  obtain ⟨q, hq, hround⟩ := product_of_lt a b h
  rw [or_iff_right (not_le.mpr h)]
  constructor
  · exact fun hproduct => ⟨q, hq ▸ hproduct.2 h⟩
  · rintro ⟨m, hm⟩
    refine ⟨fun hle => absurd hle (not_le.mpr h), fun _ => ?_⟩
    rw [hq, ← hm.coarser (by decide) hround]
    exact hm

/-- `1e-16383 * 1.0` is zero. -/
theorem product_loses_digits : ¬ RoundedProduct (finite 1 maxScale) (finite 10 1) := by
  intro h
  have hlt : maxScale < maxScale + 1 := Nat.lt_succ_self _
  obtain ⟨n, hn, hround⟩ := h.2 hlt
  obtain ⟨q, hq, -⟩ := product_of_lt 1 10 hlt
  have hone : (finite 1 maxScale).value * (finite 10 1).value * 10 ^ maxScale = 1 := by
    rw [value, value]
    push_cast
    field_simp
  rw [hone] at hround
  have hn1 : n = 1 := hround.unique (.of_lt (by norm_num))
  obtain ⟨k, hk⟩ := Nat.exists_eq_add_of_lt (by decide : maxResultScale < maxScale)
  rw [hq, hk] at hn
  have hten : (10 : Int) ∣ 1 := ⟨q * 10 ^ k, by rw [← hn1, eq_of_div_pow_eq hn, pow_succ]; ring⟩
  omega

/-! ## Division -/

theorem aligned_spec (a b : Int) (sa sb : Nat) : ∃ A B S, aligned a sa b sb = (A, B, S) ∧
    (a / 10 ^ sa : ℚ) = A / 10 ^ S ∧ (b / 10 ^ sb : ℚ) = B / 10 ^ S ∧ A.sign = a.sign ∧
    (B = 0 ↔ b = 0) := by
  have hshift : ∀ (m : Int) {s t : Nat}, s < t → (m / 10 ^ s : ℚ) = shifted m (t - s) / 10 ^ t := by
    intro m s t hst
    have hpow : (10 : ℚ) ^ t = 10 ^ (t - s) * 10 ^ s := by rw [← pow_add, Nat.sub_add_cancel hst.le]
    rw [shifted, hpow]
    push_cast
    field_simp
  rw [aligned]
  split
  next h => exact ⟨a, b, sa, rfl, rfl, by rw [compare_eq_iff_eq.mp h], rfl, Iff.rfl⟩
  next h =>
    refine ⟨_, b, sb, rfl, hshift a (compare_lt_iff_lt.mp h), rfl, ?_, Iff.rfl⟩
    rw [shifted, Int.sign_mul, Int.sign_eq_one_of_pos (a := 10 ^ (sb - sa)) (by positivity),
      mul_one]
  next h =>
    refine ⟨a, _, sa, rfl, rfl, hshift b (compare_gt_iff_gt.mp h), rfl, ?_⟩
    rw [shifted, mul_eq_zero, or_iff_left (by positivity)]

theorem divRounded_nearest (a : Int) {b : Int} {sa sb s : Nat} (hb : b ≠ 0) (hsa : sa < 2 ^ 32)
    (hs : s < 2 ^ 32) (hk : s + sb < sa + 2 ^ 32) :
    ∃ v, divRounded s (finite a sa) (finite b sb) = .ok v ∧
      NearestMultiple s ((finite a sa).value / (finite b sb).value) v.value := by
  have hmod : (s : Int).toNat % 2 ^ 32 = s := by rw [Int.toNat_natCast, Nat.mod_eq_of_lt hs]
  rw [divRounded, ensure, if_pos hb, hmod]
  refine ⟨_, rfl, _, rfl, ?_⟩
  rcases le_or_gt 0 ((s : Int) + sb - sa) with h | h
  · have hk' : ((s : Int) + sb - sa).toNat % 2 ^ 32 = s + sb - sa := by
      rw [Nat.mod_eq_of_lt] <;> omega
    rw [if_pos h, hk']
    convert divRound_spec (shifted a (s + sb - sa)) hb using 1
    have hpow : (10 : ℚ) ^ s * 10 ^ sb = 10 ^ (s + sb - sa) * 10 ^ sa := by
      rw [← pow_add, ← pow_add, Nat.sub_add_cancel (by omega)]
    have hb' : (b : ℚ) ≠ 0 := by exact_mod_cast hb
    rw [value, value, shifted, div_div_div_eq, div_mul_eq_mul_div,
      div_eq_div_iff (mul_ne_zero (by positivity) hb') hb']
    push_cast
    linear_combination (a * b : ℚ) * hpow
  · have hk' : (-((s : Int) + sb - sa)).toNat % 2 ^ 32 = sa - (s + sb) := by
      rw [Nat.mod_eq_of_lt] <;> omega
    rw [if_neg (not_le.mpr h), hk']
    have hne : shifted b (sa - (s + sb)) ≠ 0 := mul_ne_zero hb (by positivity)
    convert divRound_spec a hne using 1
    have hpow : (10 : ℚ) ^ sa = 10 ^ (sa - (s + sb)) * (10 ^ s * 10 ^ sb) := by
      rw [← pow_add, ← pow_add, Nat.sub_add_cancel (by omega)]
    rw [value, value, shifted, hpow]
    push_cast
    field_simp

theorem division_laws (a : Int) {b : Int} (sa sb s : Nat) (hb : b ≠ 0) :
    (sa < 2 ^ 32 → s < 2 ^ 32 → s + sb < sa + 2 ^ 32 → ∃ v,
      divRounded s (finite a sa) (finite b sb) = .ok v ∧
      NearestMultiple s ((finite a sa).value / (finite b sb).value) v.value) ∧
    ∃ q r, divTrunc (finite a sa) (finite b sb) = .ok q ∧
      checkedRem (finite a sa) (finite b sb) = .ok r ∧
      (finite a sa).value = (finite b sb).value * q.value + r.value ∧
      (∃ z : Int, q.value = z) ∧ |r.value| < |(finite b sb).value| ∧
      (r.value = 0 ∨ r.signum = (finite a sa).signum) := by
  refine ⟨divRounded_nearest a hb, ?_⟩
  obtain ⟨A, B, S, haligned, ha, hB, hsign, hzero⟩ := aligned_spec a b sa sb
  have hB0 := mt hzero.mp hb
  obtain ⟨heq, hlt, -⟩ := tdiv_spec A hB0
  refine ⟨finite (A.tdiv B) 0, finite (A.tmod B) S, ?_, ?_, ?_, ⟨A.tdiv B, ?_⟩, ?_, ?_⟩
  · rw [divTrunc, ensure, if_pos hb, haligned]; rfl
  · rw [checkedRem, ensure, if_pos hb, haligned]; rfl
  · have hmul : (A : ℚ) = B * A.tdiv B + A.tmod B := by
      exact_mod_cast (Int.mul_tdiv_add_tmod A B).symm
    rw [value, value, value, value, ha, hB, hmul, pow_zero, div_one, add_div, mul_div_right_comm]
  · rw [value, pow_zero, div_one]
  · have hpos : (0 : ℚ) < 10 ^ S := by positivity
    rw [abs_div, div_lt_one (abs_pos.mpr (by exact_mod_cast hB0))] at hlt
    rw [value, value, hB, abs_div, abs_div, div_lt_div_iff_of_pos_right (abs_pos.mpr hpos.ne')]
    exact hlt
  · rw [signum, signum, Int.sign_tmod, hsign]
    split
    next hdvd => exact .inl (by rw [value, Int.tmod_eq_zero_of_dvd hdvd, Int.cast_zero, zero_div])
    · exact .inr rfl

/-- A tie: the quotient is two and a half. -/
theorem division_laws_ten_four : (4 : Int) ≠ 0 ∧ ∃ v,
    divRounded 0 (finite 10 0) (finite 4 0) = .ok v ∧
    NearestMultiple 0 ((finite 10 0).value / (finite 4 0).value) v.value :=
  ⟨by decide, (division_laws 10 0 0 0 (by decide)).1 (by decide) (by decide) (by decide)⟩

/-- At scale `2 ^ 32` the quotient of one and three is zero. -/
theorem third_is_zero : ¬ ∃ v, divRounded (2 ^ 32) (finite 1 0) (finite 3 0) = .ok v ∧
    NearestMultiple (2 ^ 32) ((finite 1 0).value / (finite 3 0).value) v.value := by
  rintro ⟨v, hv, q, hq, hround, -⟩
  have hzero : divRounded (2 ^ 32) (finite 1 0) (finite 3 0) = .ok (finite 0 0) := by decide +kernel
  cases hzero.symm.trans hv
  obtain ⟨n, hn⟩ : ∃ n, 2 ^ 32 = n + 1 := ⟨2 ^ 32 - 1, by decide⟩
  rw [hn] at hq hround
  have hq0 : (q : ℚ) = 0 := by
    rw [value, Int.cast_zero, zero_div, eq_comm, div_eq_zero_iff] at hq
    exact hq.resolve_right (by positivity)
  have hten : (10 : ℚ) ≤ 10 ^ (n + 1) := le_self_pow₀ (by norm_num) (by omega)
  rw [hq0, sub_zero, value, value, abs_le] at hround
  norm_num at hround
  linarith [hround.2]

end Numeric

end NodusDb.Sql
