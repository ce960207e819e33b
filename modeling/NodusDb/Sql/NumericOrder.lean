import NodusDb.Sql.NumericOps
import NodusDb.Sql.ValueOrder

/-!
# Decimals by value

* `Numeric.normalize_canonical`: decimals are compared by value, and two of them have one value
  exactly when `normalize` makes them the same; it gives the smallest scale there is for the value.
-/

namespace NodusDb.Sql.Numeric

theorem normalizeFinite_spec (digits : Int) (scale : Nat) :
    ∃ d s, normalizeFinite digits scale = finite d s ∧
      (d / 10 ^ s : ℚ) = digits / 10 ^ scale ∧ (s = 0 ∨ ¬ 10 ∣ d) := by
  induction scale generalizing digits with
  | zero => exact ⟨digits, 0, rfl, rfl, .inl rfl⟩
  | succ scale ih =>
    rw [normalizeFinite]
    split
    next h =>
      obtain ⟨d, s, heq, hvalue, hmin⟩ := ih (digits / 10)
      refine ⟨d, s, heq, hvalue.trans ?_, hmin⟩
      have hten : (digits : ℚ) = (digits / 10 : Int) * 10 := by
        exact_mod_cast (Int.ediv_mul_cancel (Int.dvd_of_emod_eq_zero h)).symm
      rw [hten, pow_succ, mul_div_mul_right _ _ (by norm_num)]
    next h => exact ⟨digits, _, rfl, rfl, .inr fun hdvd => h (Int.emod_eq_zero_of_dvd hdvd)⟩

theorem normalize_finite (digits : Int) (scale : Nat) :
    ∃ d s, (finite digits scale).normalize = finite d s ∧
      (d / 10 ^ s : ℚ) = digits / 10 ^ scale ∧ (s = 0 ∨ ¬ 10 ∣ d) := by
  rw [normalize]
  split
  next h => exact ⟨0, 0, rfl, by rw [h, Int.cast_zero, zero_div, zero_div], .inl rfl⟩
  · exact normalizeFinite_spec digits scale

theorem scale_le {d d' : Int} {s s' : Nat} (hmin : s = 0 ∨ ¬ 10 ∣ d)
    (h : (d' / 10 ^ s' : ℚ) = d / 10 ^ s) : s ≤ s' := by
  by_contra hlt
  obtain ⟨k, rfl⟩ := Nat.exists_eq_add_of_lt (not_le.mp hlt)
  refine (hmin.resolve_left (by omega)) ⟨d' * 10 ^ k, ?_⟩
  rw [eq_of_div_pow_eq h, pow_succ]
  ring

theorem cmp_eq_iff (x y : Numeric) : x.cmp y = .eq ↔ x.key = y.key := by
  have hlt := x.cmp_lt_iff y
  have hgt := x.cmp_gt_iff y
  cases h : x.cmp y with
  | lt => exact iff_of_false nofun (hlt.mp h).ne
  | gt => exact iff_of_false nofun (hgt.mp h).ne'
  | eq =>
    rw [h] at hlt hgt
    exact iff_of_true rfl (le_antisymm (not_lt.mp fun hk => nomatch hgt.mpr hk)
      (not_lt.mp fun hk => nomatch hlt.mpr hk))

theorem normalize_eq_iff (x y : Numeric) : x.normalize = y.normalize ↔ x.cmp y = .eq := by
  rw [cmp_eq_iff]
  cases x with
  | finite a sa =>
    obtain ⟨d, s, hx, hvalue, hmin⟩ := normalize_finite a sa
    cases y with
    | finite b sb =>
      obtain ⟨d', s', hy, hvalue', hmin'⟩ := normalize_finite b sb
      have hkey : (finite a sa).key = (finite b sb).key ↔ (d / 10 ^ s : ℚ) = d' / 10 ^ s' := by
        rw [key, key, ← hvalue, ← hvalue', toLex_inj, Prod.mk_right_inj]
      rw [hx, hy, hkey]
      constructor
      · rintro ⟨⟩
        rfl
      · intro h
        obtain rfl := le_antisymm (scale_le hmin h.symm) (scale_le hmin' h)
        rw [div_left_inj' (by positivity), Int.cast_inj] at h
        rw [h]
    | nan | infinity | negInfinity =>
      rw [hx]
      exact iff_of_false (by rintro ⟨⟩) (by simp [key, rank])
  | nan | infinity | negInfinity =>
    cases y with
    | finite b sb =>
      obtain ⟨d', s', hy, -⟩ := normalize_finite b sb
      rw [hy]
      exact iff_of_false (by rintro ⟨⟩) (by simp [key, rank])
    | nan | infinity | negInfinity => simp [normalize, key, rank]

theorem scale_normalize_le {x y : Numeric} (h : y.cmp x = .eq) : x.normalize.scale ≤ y.scale := by
  rw [cmp_eq_iff] at h
  cases x with
  | finite a sa =>
    obtain ⟨d, s, hx, hvalue, hmin⟩ := normalize_finite a sa
    rw [hx]
    cases y with
    | finite b sb =>
      rw [key, key, toLex_inj, Prod.mk_right_inj, ← hvalue] at h
      exact scale_le hmin h
    | nan | infinity | negInfinity => simp [key, rank] at h
  | nan | infinity | negInfinity => exact Nat.zero_le _

/-- `cmp` is the order of the keys, finite decimals by value, and `normalize` gives one decimal
for each value, with the smallest scale. -/
theorem normalize_canonical : Comparison cmp (fun _ => True) ∧ ∀ x y : Numeric,
    x.cmp y = Ord.compare x.key y.key ∧ (x.normalize = y.normalize ↔ x.cmp y = .eq) ∧
      x.normalize.cmp x = .eq ∧ (y.cmp x = .eq → x.normalize.scale ≤ y.scale) := by
  refine ⟨numericCmp_comparison, fun x y => ⟨?_, normalize_eq_iff x y, ?_, scale_normalize_le⟩⟩
  · cases h : x.cmp y with
    | lt => exact (compare_lt_iff_lt.mpr ((x.cmp_lt_iff y).mp h)).symm
    | gt => exact (compare_gt_iff_gt.mpr ((x.cmp_gt_iff y).mp h)).symm
    | eq => exact (compare_eq_iff_eq.mpr ((x.cmp_eq_iff y).mp h)).symm
  rw [cmp_eq_iff]
  cases x with
  | finite a sa =>
    obtain ⟨d, s, hx, hvalue, -⟩ := normalize_finite a sa
    rw [hx, key, key, hvalue]
  | nan | infinity | negInfinity => rfl

end NodusDb.Sql.Numeric
