import Mathlib

/-!
# Tilings of an ordered key space

`Tiles a l`: the pieces of `l` follow each other from `a` on without a gap, and the last one is
open. Every key from `a` on is then in exactly one piece, cutting a piece or joining two neighbours
gives a tiling again, and the pieces cut to an interval make up the interval (`clip`).
-/

namespace Tiling

open List

variable {K α : Type} [LinearOrder K]

def Holds (lo : α → K) (hi : α → Option K) (x : α) (k : K) : Prop :=
  lo x ≤ k ∧ ∀ b, hi x = some b → k < b

/-- The pieces follow each other from a key on; only the last one is open. -/
inductive Tiles (lo : α → K) (hi : α → Option K) : K → List α → Prop
  | last {x : α} (hopen : hi x = none) : Tiles lo hi (lo x) [x]
  | cons {x : α} {b : K} {l : List α} (hhi : hi x = some b) (hlt : lo x < b)
      (ht : Tiles lo hi b l) : Tiles lo hi (lo x) (x :: l)

variable {lo : α → K} {hi : α → Option K} {a : K} {l pre post : List α} {x y z : α}

namespace Tiles

section

variable (h : Tiles lo hi a l)
include h

theorem start_le (hx : x ∈ l) : a ≤ lo x := by
  induction h with
  | last => rw [mem_singleton.mp hx]
  | cons _ hlt _ ih =>
    rcases mem_cons.mp hx with rfl | hx
    · exact le_rfl
    · exact hlt.le.trans (ih hx)

theorem first : ∃ x rest, l = x :: rest ∧ lo x = a ∧ ∀ y ∈ rest, a < lo y := by
  cases h with
  | @last x hopen => exact ⟨x, [], rfl, rfl, nofun⟩
  | @cons x b rest hhi hlt ht =>
    exact ⟨x, rest, rfl, rfl, fun y hy => hlt.trans_le (ht.start_le hy)⟩

theorem ordered : l.Pairwise fun x y => ∃ b, hi x = some b ∧ b ≤ lo y := by
  induction h with
  | last => exact pairwise_singleton _ _
  | cons hhi _ ht ih => exact pairwise_cons.mpr ⟨fun y hy => ⟨_, hhi, ht.start_le hy⟩, ih⟩

theorem sorted : l.Pairwise fun x y => lo x < lo y := by
  induction h with
  | last => exact pairwise_singleton _ _
  | cons _ hlt ht ih => exact pairwise_cons.mpr ⟨fun y hy => hlt.trans_le (ht.start_le hy), ih⟩

variable {k : K}

theorem covers (hk : a ≤ k) : ∃ x ∈ l, Holds lo hi x k := by
  induction h with
  | @last x hopen =>
    refine ⟨x, mem_cons_self, hk, fun b hb => ?_⟩
    cases hopen.symm.trans hb
  | @cons x b l hhi _ _ ih =>
    rcases lt_or_ge k b with hlt | hge
    · refine ⟨x, mem_cons_self, hk, fun b' hb => ?_⟩
      cases hhi.symm.trans hb
      exact hlt
    · obtain ⟨y, hy, hholds⟩ := ih hge
      exact ⟨y, mem_cons_of_mem _ hy, hholds⟩

theorem holds_unique (hx : x ∈ l) (hy : y ∈ l) (hxk : Holds lo hi x k) (hyk : Holds lo hi y k) :
    x = y := by
  induction h with
  | last => rw [mem_singleton.mp hx, mem_singleton.mp hy]
  | @cons z b l hhi _ ht ih =>
    -- A key of the first piece is below all later pieces.
    have hlater : ∀ {w : α}, w ∈ l → Holds lo hi w k → ¬ Holds lo hi z k := fun hw hwk hzk =>
      absurd (hzk.2 b hhi) (not_lt.mpr ((ht.start_le hw).trans hwk.1))
    rcases mem_cons.mp hx with rfl | hx'
    · rcases mem_cons.mp hy with rfl | hy'
      · rfl
      · exact absurd hxk (hlater hy' hyk)
    · rcases mem_cons.mp hy with rfl | hy'
      · exact absurd hyk (hlater hx' hxk)
      · exact ih hx' hy'

theorem lo_lt (hx : x ∈ l) {b : K} (hb : hi x = some b) : lo x < b := by
  induction h with
  | last hopen =>
    rw [mem_singleton.mp hx, hopen] at hb
    cases hb
  | cons hhi hlt _ ih =>
    rcases mem_cons.mp hx with rfl | hx
    · cases hhi.symm.trans hb
      exact hlt
    · exact ih hx

end

theorem replace {suffix : List α} (h : Tiles lo hi a (pre ++ x :: post))
    (hnew : Tiles lo hi (lo x) (x :: post) → Tiles lo hi (lo x) suffix) :
    Tiles lo hi a (pre ++ suffix) := by
  induction pre generalizing a with
  | nil => cases h with
    | last hopen => exact hnew (.last hopen)
    | cons hhi hlt ht => exact hnew (.cons hhi hlt ht)
  | cons w pre ih =>
    generalize hl : w :: pre ++ x :: post = l at h
    cases h with
    | last => simp at hl
    | cons hhi hlt ht =>
      cases hl
      exact .cons hhi hlt (ih ht)

theorem split (h : Tiles lo hi a (pre ++ x :: post)) (hlo : lo y = lo x)
    (hcut : hi y = some k) (hz : lo z = k) (hhi : hi z = hi x) (hk : lo x < k)
    (hend : ∀ b, hi x = some b → k < b) : Tiles lo hi a (pre ++ y :: z :: post) := by
  refine h.replace fun hx => ?_
  rw [← hlo] at hk ⊢
  refine .cons hcut hk ?_
  rw [← hz] at hend ⊢
  generalize hs : lo x = s at hx
  cases hx with
  | last hopen => exact .last (hhi.trans hopen)
  | cons hhi' _ ht => exact .cons (hhi.trans hhi') (hend _ hhi') ht

theorem merge (h : Tiles lo hi a (pre ++ x :: y :: post)) (hlo : lo z = lo x) (hhi : hi z = hi y) :
    Tiles lo hi a (pre ++ z :: post) := by
  refine h.replace fun hx => ?_
  rw [← hlo]
  generalize hs : lo x = s at hx
  cases hx with
  | cons hhi' hlt ht =>
    cases ht with
    | last hopen => exact .last (hhi.trans hopen)
    | cons hhi'' hlt' ht => exact .cons (hhi.trans hhi'') (hlo ▸ hlt.trans hlt') ht

/-- The piece that starts where another one ends is its neighbour. -/
theorem adjacent (h : Tiles lo hi a l) (hx : x ∈ l) (hy : y ∈ l) (hxy : hi x = some (lo y)) :
    ∃ pre post, l = pre ++ x :: y :: post := by
  induction h with
  | last hopen =>
    rw [mem_singleton.mp hx, hopen] at hxy
    cases hxy
  | @cons w b l hhi hlt ht ih =>
    have hne : y ≠ w := by
      rintro rfl
      rcases mem_cons.mp hx with rfl | hx
      · cases hhi.symm.trans hxy
        exact lt_irrefl _ hlt
      · exact lt_irrefl _ ((hlt.trans_le (ht.start_le hx)).trans (ht.lo_lt hx hxy))
    replace hy := (mem_cons.mp hy).resolve_left hne
    rcases mem_cons.mp hx with rfl | hx
    · cases hhi.symm.trans hxy
      obtain ⟨v, rest, rfl, -, hrest⟩ := ht.first
      rcases mem_cons.mp hy with rfl | hy
      · exact ⟨[], rest, rfl⟩
      · exact absurd (hrest y hy) (lt_irrefl _)
    · obtain ⟨pre, post, rfl⟩ := ih hx hy
      exact ⟨w :: pre, post, rfl⟩

end Tiles

/-! ## Cutting to an interval -/

/-- The upper end of a piece that is cut at a key. -/
def cutAt (stop : K) : Option K → K
  | none => stop
  | some b => min stop b

/-- A piece cut to an interval, with its new ends. -/
def clip (lo : α → K) (hi : α → Option K) (start stop : K) (x : α) : Option (α × K × K) :=
  if max start (lo x) < cutAt stop (hi x) then some (x, max start (lo x), cutAt stop (hi x))
  else none

variable {start stop k : K}

theorem lt_cutAt {b : Option K} : k < cutAt stop b ↔ k < stop ∧ ∀ c, b = some c → k < c := by
  cases b with
  | none => exact ⟨fun h => ⟨h, nofun⟩, fun h => h.1⟩
  | some c =>
    rw [cutAt, lt_min_iff]
    refine and_congr_right fun _ => ⟨fun h d hd => ?_, fun h => h c rfl⟩
    cases hd
    exact h

theorem cutAt_le {b : Option K} {c : K} (hb : b = some c) : cutAt stop b ≤ c := by
  rw [hb]
  exact min_le_right _ _

theorem mem_clip : max start (lo x) ≤ k ∧ k < cutAt stop (hi x) ↔
    (start ≤ k ∧ k < stop) ∧ Holds lo hi x k := by
  rw [max_le_iff, lt_cutAt, Holds]
  tauto

theorem clip_eq_some {p : α × K × K} : clip lo hi start stop x = some p ↔
    max start (lo x) < cutAt stop (hi x) ∧ p = (x, max start (lo x), cutAt stop (hi x)) := by
  unfold clip
  split
  next h => simp [h, eq_comm]
  next h => simp [h]

theorem mem_filterMap_clip {p : α × K × K} : p ∈ l.filterMap (clip lo hi start stop) ↔
    ∃ x ∈ l, max start (lo x) < cutAt stop (hi x) ∧
      p = (x, max start (lo x), cutAt stop (hi x)) := by
  simp only [mem_filterMap, clip_eq_some]

theorem Tiles.clip_ordered (h : Tiles lo hi a l) :
    (l.filterMap (clip lo hi start stop)).Pairwise fun p q => p.2.2 ≤ q.2.1 := by
  refine h.ordered.filterMap _ ?_
  rintro x y ⟨b, hb, hle⟩ p hp q hq
  obtain ⟨-, rfl⟩ := clip_eq_some.mp hp
  obtain ⟨-, rfl⟩ := clip_eq_some.mp hq
  exact (cutAt_le hb).trans (hle.trans (le_max_right _ _))

theorem Tiles.clip_union (h : Tiles lo hi a l) (ha : ∀ k, a ≤ k) :
    (∃ p ∈ l.filterMap (clip lo hi start stop), p.2.1 ≤ k ∧ k < p.2.2) ↔ start ≤ k ∧ k < stop := by
  constructor
  · rintro ⟨p, hp, hk⟩
    obtain ⟨x, -, -, rfl⟩ := mem_filterMap_clip.mp hp
    exact (mem_clip.mp hk).1
  · intro hk
    obtain ⟨x, hx, hholds⟩ := h.covers (ha k)
    have hmem := mem_clip.mpr ⟨hk, hholds⟩
    exact ⟨_, mem_filterMap_clip.mpr ⟨x, hx, hmem.1.trans_lt hmem.2, rfl⟩, hmem⟩

end Tiling
