import NodusDb.Lib.VersionSet

/-!
# Stacks of layers

A history of versions kept in a stack of layers, newest first. `Layered` is the invariant: every
layer is part of the history and covers those below it, and the stack is complete above the
watermark. The lemmas are the moves of a log-structured store; `newest_of_stack` is the search.
-/

variable {E T : Type} [LinearOrder T] {ver : E → T} {dead : E → Prop}

def unionAll (stack : List (Set E)) : Set E := {e | ∃ A ∈ stack, e ∈ A}

structure Layered (ver : E → T) (dead : E → Prop) (H : Set E) (stack : List (Set E)) (W : T) :
    Prop where
  sub : ∀ A ∈ stack, A ⊆ H
  cov : stack.Pairwise (Covers ver)
  comp : Complete ver dead H (unionAll stack) W

section UnionAll

variable {U : Set E} {Ls : List (Set E)}

theorem mem_unionAll_cons : e ∈ unionAll (U :: Ls) ↔ e ∈ U ∪ unionAll Ls := by
  simp [unionAll]

theorem unionAll_cons : unionAll (U :: Ls) = U ∪ unionAll Ls :=
  Set.ext fun _ => mem_unionAll_cons

@[simp] theorem unionAll_nil : unionAll ([] : List (Set E)) = ∅ := by
  simp [unionAll]

theorem unionAll_pair (A : Set E) : unionAll [U, A] = U ∪ A := by
  rw [unionAll_cons, unionAll_cons, unionAll_nil, Set.union_empty]

theorem covers_unionAll (h : ∀ L ∈ Ls, Covers ver U L) : Covers ver U (unionAll Ls) := by
  rintro v ⟨L, hL, hv⟩ hu
  exact h L hL v hv hu

/-- The first layer that has something at `t` has the newest version at `t`. -/
theorem newest_of_stack (hcov : (pre ++ A :: post).Pairwise (Covers ver))
    (hpre : ∀ B ∈ pre, ∀ b ∈ B, ¬ ver b ≤ t) (he : IsNewest ver A t e) :
    IsNewest ver (unionAll (pre ++ A :: post)) t e := by
  induction pre with
  | nil =>
    rw [List.nil_append, unionAll_cons]
    exact isNewest_upper (covers_unionAll (List.pairwise_cons.mp hcov).1) he
  | cons B pre ih =>
    rw [List.cons_append, unionAll_cons]
    rw [isNewest_lower (hpre B List.mem_cons_self)]
    exact ih (List.pairwise_cons.mp hcov).2 fun C hC => hpre C (List.mem_cons_of_mem B hC)

end UnionAll

namespace Layered

open List

variable {H U Z A : Set E} {Ls : List (Set E)} {W : T}

theorem empty : Layered ver dead (∅ : Set E) [∅] W := by
  refine ⟨fun A hA => ?_, pairwise_singleton _ _, fun h hh => absurd hh (Set.notMem_empty h),
    fun b hb => absurd hb.1 (Set.notMem_empty b)⟩
  rw [mem_singleton.mp hA]

theorem union_sub (h : Layered ver dead H Ls W) : unionAll Ls ⊆ H := by
  rintro e ⟨A, hA, he⟩
  exact h.sub A hA he

theorem top_covers (h : Layered ver dead H (U :: Ls) W) : ∀ L ∈ Ls, Covers ver U L :=
  (pairwise_cons.mp h.cov).1

theorem mono (h : Layered ver dead H Ls W) (hW : W ≤ W') : Layered ver dead H Ls W' :=
  ⟨h.sub, h.cov, h.comp.mono h.union_sub hW⟩

/-- Replace the top layer by one that answers as much and shadows as little. -/
theorem change_top (h : Layered ver dead H (U :: Ls) W) (hsub : U' ⊆ H)
    (hcov : ∀ L ∈ Ls, Covers ver U' L) (hcomp : Complete ver dead H (U' ∪ unionAll Ls) W) :
    Layered ver dead H (U' :: Ls) W := by
  refine ⟨?_, pairwise_cons.mpr ⟨hcov, (pairwise_cons.mp h.cov).2⟩, ?_⟩
  · intro A hA
    rcases mem_cons.mp hA with rfl | hA
    · exact hsub
    · exact h.sub A (mem_cons_of_mem U hA)
  · rw [unionAll_cons]
    exact hcomp

theorem commit (h : Layered ver dead H (U :: Ls) W) (he : ∀ v ∈ H, ver v < ver e) :
    Layered ver dead (insert e H) (insert e U :: Ls) W := by
  have hsub : ∀ A ∈ Ls, A ⊆ H := fun A hA => h.sub A (mem_cons_of_mem U hA)
  refine ⟨?_, pairwise_cons.mpr ⟨fun L hL => ?_, (pairwise_cons.mp h.cov).2⟩, ?_⟩
  · intro A hA
    rcases mem_cons.mp hA with rfl | hA
    · exact Set.insert_subset_insert (h.sub U mem_cons_self)
    · exact (hsub A hA).trans (Set.subset_insert e H)
  · exact (h.top_covers L hL).insert fun v hv => he v (hsub L hL hv)
  · have hc := h.comp.insert he
    rw [unionAll_cons] at hc ⊢
    rwa [Set.insert_union]

variable {keep : E}

/-- Forget what is older than a version of the top layer at or below the
watermark. -/
theorem cut_top (h : Layered ver dead H (U :: Ls) W) (hU : UpperIn ver U U') (hk : keep ∈ U)
    (hkW : ver keep ≤ W) (hkeep : ∀ a ∈ U, ver keep ≤ ver a → a ∈ U') :
    Layered ver dead H (U' :: Ls) W := by
  have hUH := h.sub U mem_cons_self
  have hcomp := h.comp
  rw [unionAll_cons] at hcomp
  exact h.change_top (hU.1.trans hUH) (fun L hL => (h.top_covers L hL).of_upperIn hU)
    (hcomp.cut hUH hk hkW hkeep)

theorem push_empty (h : Layered ver dead H Ls W) : Layered ver dead H (∅ :: Ls) W := by
  refine ⟨?_, pairwise_cons.mpr ⟨fun _ _ => covers_empty_left, h.cov⟩, ?_⟩
  · intro A hA
    rcases mem_cons.mp hA with rfl | hA
    · exact Set.empty_subset H
    · exact h.sub A hA
  · rw [unionAll_cons, Set.empty_union]
    exact h.comp

/-- Put a layer that is in the stack's place under a final stretch of the
history. -/
theorem insert_under (hZ : Layered ver dead H (Z :: Ls) W) (hup : UpperIn ver H Z)
    (hU : Layered ver dead H (U :: Ls) W) : Layered ver dead H (Z :: U :: Ls) W := by
  refine ⟨?_, pairwise_cons.mpr ⟨?_, hU.cov⟩, ?_⟩
  · intro A hA
    rcases mem_cons.mp hA with rfl | hA
    · exact hup.1
    · exact hU.sub A hA
  · intro L hL
    exact hup.covers (hU.sub L hL)
  · refine (hZ.comp.union hU.comp).congr fun x => ?_
    simp only [unionAll_cons, Set.mem_union]
    tauto

theorem insert_empty (h : Layered ver dead H (U :: Ls) W) :
    Layered ver dead H (U :: ∅ :: Ls) W := by
  obtain ⟨htop, hrest⟩ := pairwise_cons.mp h.cov
  refine ⟨?_, pairwise_cons.mpr ⟨?_, pairwise_cons.mpr
    ⟨fun _ _ => covers_empty_left, hrest⟩⟩, ?_⟩
  · intro A hA
    rcases mem_cons.mp hA with rfl | hA
    · exact h.sub A mem_cons_self
    rcases mem_cons.mp hA with rfl | hA
    · exact Set.empty_subset H
    · exact h.sub A (mem_cons_of_mem U hA)
  · intro L hL
    rcases mem_cons.mp hL with rfl | hL
    · exact covers_empty_right
    · exact htop L hL
  · refine h.comp.congr fun x => ?_
    simp [unionAll_cons]

theorem merge (h : Layered ver dead H (U :: Ls) W) : Layered ver dead H [U, unionAll Ls] W := by
  refine ⟨?_, ?_, ?_⟩
  · intro A hA
    rcases mem_cons.mp hA with rfl | hA
    · exact h.sub A mem_cons_self
    rw [mem_singleton.mp hA]
    rintro e ⟨L, hL, he⟩
    exact h.sub L (mem_cons_of_mem U hL) he
  · rw [pairwise_pair]
    exact covers_unionAll h.top_covers
  · rw [unionAll_pair, ← unionAll_cons]
    exact h.comp

theorem change_lower (h : Layered ver dead H [U, A] W) (hsub : A' ⊆ A)
    (hcomp : Complete ver dead H (U ∪ A') W) : Layered ver dead H [U, A'] W := by
  refine ⟨?_, ?_, ?_⟩
  · intro B hB
    rcases mem_cons.mp hB with rfl | hB
    · exact h.sub B mem_cons_self
    rw [mem_singleton.mp hB]
    exact hsub.trans (h.sub A (by simp))
  · rw [pairwise_pair]
    exact (h.top_covers A (by simp)).mono_right hsub
  · rwa [unionAll_pair]

theorem cut_lower (h : Layered ver dead H [U, A] W) (hsub : A' ⊆ A) (hk : keep ∈ A)
    (hkW : ver keep ≤ W) (hkeep : ∀ a ∈ A, ver keep ≤ ver a → a ∈ A') :
    Layered ver dead H [U, A'] W := by
  have hcomp := h.comp
  rw [unionAll_pair, Set.union_comm] at hcomp
  refine h.change_lower hsub ?_
  rw [Set.union_comm]
  exact hcomp.cut (h.sub A (by simp)) hk hkW hkeep

/-- A lower layer whose newest version is an old tombstone can go. -/
theorem drop_lower (h : Layered ver dead H [U, A] W) (hinj : Set.InjOn ver H)
    (hk : keep ∈ A) (hkW : ver keep ≤ W) (hmax : ∀ a ∈ A, ver a ≤ ver keep) (hd : dead keep) :
    Layered ver dead H [U, ∅] W := by
  have hcomp := h.comp
  rw [unionAll_pair] at hcomp
  refine h.change_lower (Set.empty_subset A) ?_
  rw [Set.union_empty]
  exact hcomp.drop_dead (h.sub A (by simp)) (h.sub U mem_cons_self)
    (h.top_covers A (by simp)) hinj hk hkW hmax hd

theorem commits (added : List E) (hl : Layered ver dead {e | e ∈ h} ({e | e ∈ u} :: Ls) W)
    (hs : (h ++ added).Pairwise fun a b => ver a < ver b) :
    Layered ver dead {e | e ∈ h ++ added} ({e | e ∈ u ++ added} :: Ls) W := by
  induction added generalizing h u with
  | nil => simpa using hl
  | cons e added ih =>
    have hlt : ∀ v ∈ h, ver v < ver e := fun v hv =>
      (pairwise_append.mp hs).2.2 v hv e mem_cons_self
    have hconcat : ∀ l : List E, {x | x ∈ l ++ [e]} = insert e {x | x ∈ l} := fun l => by
      ext x
      simp [or_comm]
    rw [append_cons] at hs
    have := ih (h := h ++ [e]) (u := u ++ [e]) (by rw [hconcat, hconcat]; exact hl.commit hlt) hs
    rwa [← append_cons, ← append_cons] at this

end Layered

theorem UpperIn.commits (added : List E) (hu : UpperIn ver {e | e ∈ h} {e | e ∈ u})
    (hs : (h ++ added).Pairwise fun a b => ver a < ver b) :
    UpperIn ver {e | e ∈ h ++ added} {e | e ∈ u ++ added} := by
  refine ⟨fun a ha => ?_, fun a ha v hv hle => ?_⟩
  · exact (List.mem_append.mp ha).elim (fun ha => List.mem_append_left _ (hu.1 ha))
      (List.mem_append_right _)
  rcases List.mem_append.mp hv with hv | hv
  · refine List.mem_append_left _ ?_
    rcases List.mem_append.mp ha with ha | ha
    · exact hu.2 a ha v hv hle
    · exact absurd ((List.pairwise_append.mp hs).2.2 v hv a ha) (not_lt.mpr hle)
  · exact List.mem_append_right _ hv
