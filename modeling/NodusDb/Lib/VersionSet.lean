import Mathlib

/-!
# Layered sets of versions

A key's history is a set of versions with a linearly ordered stamp, kept in several layers some of
which have forgotten part of it.

* `IsNewest ver A t e`: `e` is the newest version of `A` at or before `t`.
* `Covers ver U L`: a read may stop at the first layer that answers.
* `Complete ver dead H A W`: `A` has what a read of the history `H` at or above `W` needs.
-/

variable {E T : Type} [LinearOrder T] {ver : E → T} {dead : E → Prop}

/-- The newest version of `A` at or before `t`. -/
def IsNewest (ver : E → T) (A : Set E) (t : T) (e : E) : Prop :=
  e ∈ A ∧ ver e ≤ t ∧ ∀ a ∈ A, ver a ≤ t → ver a ≤ ver e

/-- The upper layer shadows the lower one without hiding anything. -/
def Covers (ver : E → T) (U L : Set E) : Prop :=
  ∀ v ∈ L, (∃ u ∈ U, ver u ≤ ver v) → v ∈ U

/-- `A` is closed upwards in `H`: it is a final stretch of the history. -/
def UpperIn (ver : E → T) (H A : Set E) : Prop :=
  A ⊆ H ∧ ∀ a ∈ A, ∀ h ∈ H, ver a ≤ ver h → h ∈ A

/-- What is left of `H` answers every read at or above `W`. -/
def Complete (ver : E → T) (dead : E → Prop) (H A : Set E) (W : T) : Prop :=
  (∀ h ∈ H, W < ver h → h ∈ A) ∧
  ∀ b, IsNewest ver H W b → b ∈ A ∨ (dead b ∧ ∀ a ∈ A, W < ver a)

namespace IsNewest

theorem eq_of_injOn (hinj : Set.InjOn ver A) (he : IsNewest ver A t e) (hf : IsNewest ver A t f) :
    e = f :=
  hinj he.1 hf.1 (le_antisymm (hf.2.2 e he.1 he.2.1) (he.2.2 f hf.1 hf.2.1))

theorem congr {A B : Set E} {t : T} {e : E} (h : ∀ x, x ∈ A ↔ x ∈ B) :
    IsNewest ver A t e ↔ IsNewest ver B t e := by
  have : A = B := Set.ext h
  rw [this]

end IsNewest

section Layers

variable {U L H A : Set E} {t W : T}

theorem covers_empty_left : Covers ver (∅ : Set E) L := by
  rintro v - ⟨u, hu, -⟩
  exact absurd hu (Set.notMem_empty u)

theorem covers_empty_right : Covers ver U (∅ : Set E) := by
  intro v hv
  exact absurd hv (Set.notMem_empty v)

theorem Covers.mono_right (h : Covers ver U L) (hL : L' ⊆ L) : Covers ver U L' :=
  fun v hv hu => h v (hL hv) hu

/-- A final stretch of the history covers every other part of it. -/
theorem UpperIn.covers (h : UpperIn ver H U) (hL : L ⊆ H) : Covers ver U L := by
  rintro v hv ⟨u, hu, hle⟩
  exact h.2 u hu v (hL hv) hle

/-- Cutting the old end off an upper layer keeps what it covers. -/
theorem Covers.of_upperIn (h : Covers ver U L) (hU : UpperIn ver U U') : Covers ver U' L := by
  rintro v hv ⟨u, hu, hle⟩
  exact hU.2 u hu v (h v hv ⟨u, hU.1 hu, hle⟩) hle

variable {e : E}

theorem Covers.insert (h : Covers ver U L) (he : ∀ v ∈ L, ver v < ver e) :
    Covers ver (insert e U) L := by
  rintro v hv ⟨u, hu, hle⟩
  rcases Set.mem_insert_iff.mp hu with rfl | hu
  · exact absurd (he v hv) (not_lt.mpr hle)
  · exact Set.mem_insert_of_mem e (h v hv ⟨u, hu, hle⟩)

theorem isNewest_upper (h : Covers ver U L) (he : IsNewest ver U t e) :
    IsNewest ver (U ∪ L) t e := by
  refine ⟨Or.inl he.1, he.2.1, ?_⟩
  rintro a (ha | ha) hat
  · exact he.2.2 a ha hat
  · by_contra hlt
    have haU : a ∈ U := h a ha ⟨e, he.1, (not_le.mp hlt).le⟩
    exact hlt (he.2.2 a haU hat)

/-- Where the upper layer has nothing to say, the lower one decides. -/
theorem isNewest_lower (hU : ∀ u ∈ U, ¬ ver u ≤ t) :
    IsNewest ver (U ∪ L) t e ↔ IsNewest ver L t e := by
  constructor
  · rintro ⟨he | he, het, hmax⟩
    · exact absurd het (hU e he)
    · exact ⟨he, het, fun a ha => hmax a (Or.inr ha)⟩
  · rintro ⟨he, het, hmax⟩
    refine ⟨Or.inr he, het, ?_⟩
    rintro a (ha | ha) hat
    · exact absurd hat (hU a ha)
    · exact hmax a ha hat

end Layers

/-! ## What garbage collection must keep -/

namespace Complete

variable {H A B : Set E} {t W W' : T}

theorem congr (h : Complete ver dead H A W) (hAB : ∀ x, x ∈ A ↔ x ∈ B) :
    Complete ver dead H B W := by
  have : A = B := Set.ext hAB
  exact this ▸ h

theorem mono (h : Complete ver dead H A W) (hsub : A ⊆ H) (hW : W ≤ W') :
    Complete ver dead H A W' := by
  refine ⟨fun x hx hlt => h.1 x hx (hW.trans_lt hlt), fun b hb => ?_⟩
  by_cases hbW : ver b ≤ W
  · have hbn : IsNewest ver H W b := ⟨hb.1, hbW, fun a ha haW => hb.2.2 a ha (haW.trans hW)⟩
    rcases h.2 b hbn with hin | ⟨hd, hnone⟩
    · exact .inl hin
    refine .inr ⟨hd, fun a ha => ?_⟩
    -- Nothing of the history lies between the two watermarks.
    by_contra haW
    have := hb.2.2 a (hsub ha) (not_lt.mp haW)
    exact absurd (hnone a ha) (not_lt.mpr (this.trans hbW))
  · exact .inl (h.1 b hb.1 (not_le.mp hbW))

theorem union (hA : Complete ver dead H A W) (hB : Complete ver dead H B W) :
    Complete ver dead H (A ∪ B) W := by
  refine ⟨fun x hx hlt => .inl (hA.1 x hx hlt), fun b hb => ?_⟩
  rcases hA.2 b hb with hin | ⟨hd, hnA⟩
  · exact .inl (.inl hin)
  rcases hB.2 b hb with hin | ⟨-, hnB⟩
  · exact .inl (.inr hin)
  refine .inr ⟨hd, ?_⟩
  rintro a (ha | ha)
  · exact hnA a ha
  · exact hnB a ha

theorem insert (h : Complete ver dead H A W) (he : ∀ v ∈ H, ver v < ver e) :
    Complete ver dead (insert e H) (insert e A) W := by
  constructor
  · intro x hx hlt
    rcases Set.mem_insert_iff.mp hx with rfl | hx
    · exact Set.mem_insert x A
    · exact Set.mem_insert_of_mem e (h.1 x hx hlt)
  · intro b hb
    rcases Set.mem_insert_iff.mp hb.1 with rfl | hbH
    · exact .inl (Set.mem_insert b A)
    have hbn : IsNewest ver H W b :=
      ⟨hbH, hb.2.1, fun a ha => hb.2.2 a (Set.mem_insert_of_mem e ha)⟩
    rcases h.2 b hbn with hin | ⟨hd, hnone⟩
    · exact .inl (Set.mem_insert_of_mem e hin)
    refine .inr ⟨hd, fun a ha => ?_⟩
    rcases Set.mem_insert_iff.mp ha with rfl | ha
    · -- The commit cannot be at or below `W`, or `b` would not be newest.
      by_contra hle
      have := hb.2.2 a (Set.mem_insert a H) (not_lt.mp hle)
      exact absurd (he b hbH) (not_lt.mpr this)
    · exact hnone a ha

/-- Drop from a part `A` what is older than one of its versions at or below the
watermark. -/
theorem cut (h : Complete ver dead H (A ∪ B) W) (hA : A ⊆ H) (hkA : keep ∈ A) (hkW : ver keep ≤ W)
    (hkeep : ∀ a ∈ A, ver keep ≤ ver a → a ∈ A') : Complete ver dead H (A' ∪ B) W := by
  constructor
  · intro x hx hlt
    rcases h.1 x hx hlt with hxA | hxB
    · exact .inl (hkeep x hxA (hkW.trans hlt.le))
    · exact .inr hxB
  · intro b hb
    rcases h.2 b hb with (hbA | hbB) | ⟨-, hnone⟩
    · exact .inl (.inl (hkeep b hbA (hb.2.2 keep (hA hkA) hkW)))
    · exact .inl (.inr hbB)
    · exact absurd (hnone keep (.inl hkA)) (not_lt.mpr hkW)

/-- Drop a whole lower part whose newest version is a tombstone at or below the
watermark. -/
theorem drop_dead (h : Complete ver dead H (B ∪ A) W) (hA : A ⊆ H) (hB : B ⊆ H)
    (hcov : Covers ver B A) (hinj : Set.InjOn ver H) (hk : keep ∈ A) (hkW : ver keep ≤ W)
    (hmax : ∀ a ∈ A, ver a ≤ ver keep) (hd : dead keep) : Complete ver dead H B W := by
  constructor
  · intro x hx hlt
    rcases h.1 x hx hlt with hxB | hxA
    · exact hxB
    · exact absurd ((hmax x hxA).trans hkW) (not_le.mpr hlt)
  · intro b hb
    rcases h.2 b hb with (hbB | hbA) | ⟨-, hnone⟩
    · exact .inl hbB
    · have heq : b = keep := hinj hb.1 (hA hk)
        (le_antisymm (hmax b hbA) (hb.2.2 keep (hA hk) hkW))
      subst heq
      by_cases hex : ∃ u ∈ B, ver u ≤ W
      · obtain ⟨u, hu, huW⟩ := hex
        exact .inl (hcov b hbA ⟨u, hu, hb.2.2 u (hB hu) huW⟩)
      refine .inr ⟨hd, fun a ha => ?_⟩
      by_contra hle
      exact hex ⟨a, ha, not_lt.mp hle⟩
    · exact absurd (hnone keep (.inr hk)) (not_lt.mpr hkW)

/-- A read of the history is a read of what is left of it, unless it is a
tombstone that is gone with everything older. -/
theorem read (h : Complete ver dead H A W) (hsub : A ⊆ H) (htW : W ≤ t) (hn : IsNewest ver H t n) :
    IsNewest ver A t n ∨ (dead n ∧ ∀ a ∈ A, ¬ ver a ≤ t) := by
  have hof : n ∈ A → IsNewest ver A t n := fun hA => ⟨hA, hn.2.1, fun a ha => hn.2.2 a (hsub ha)⟩
  by_cases hnW : ver n ≤ W
  · have hb : IsNewest ver H W n := ⟨hn.1, hnW, fun a ha haW => hn.2.2 a ha (haW.trans htW)⟩
    rcases h.2 n hb with hin | ⟨hd, hnone⟩
    · exact .inl (hof hin)
    refine .inr ⟨hd, fun a ha hat => ?_⟩
    have := hn.2.2 a (hsub ha) hat
    exact absurd (hnone a ha) (not_lt.mpr (this.trans hnW))
  · exact .inl (hof (h.1 n hn.1 (not_le.mp hnW)))

theorem read_conv (h : Complete ver dead H A W) (hsub : A ⊆ H) (hinj : Set.InjOn ver H)
    (htW : W ≤ t) (hn : IsNewest ver A t n) (hm : IsNewest ver H t m) : n = m := by
  rcases h.read hsub htW hm with hmA | ⟨-, hnone⟩
  · exact hn.eq_of_injOn (hinj.mono hsub) hmA
  · exact absurd hn.2.1 (hnone n hn.1)

end Complete
