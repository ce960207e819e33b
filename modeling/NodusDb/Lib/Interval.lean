import NodusDb.Lib.OrdMap
import NodusDb.Lib.Lists

/-!
# Maps over an interval of indexes

A map with natural-number keys that has every key from a lower end up to its last one (`GapFree`),
as a log that is cut at its front and extended at its back.
-/

namespace OrdMap

open List

variable {V : Type} {m : OrdMap Nat V} {lo n k : Nat} {v : V}

/-- The keys from `lo` up to any key of the map are in the map. -/
def GapFree (lo : Nat) (m : OrdMap Nat V) : Prop :=
  ∀ n k, lo ≤ n → n ≤ k → m.get? k ≠ none → m.get? n ≠ none

def dropBelow (m : OrdMap Nat V) (lo : Nat) : OrdMap Nat V := m.filter fun n _ => decide (lo ≤ n)

def cutFrom (m : OrdMap Nat V) (k : Nat) : OrdMap Nat V := m.filter fun n _ => decide (n < k)

theorem get?_dropBelow : (m.dropBelow lo).get? n = if lo ≤ n then m.get? n else none := by
  rw [dropBelow, get?_filter]
  by_cases h : lo ≤ n <;> cases m.get? n <;> simp [h]

theorem get?_cutFrom : (m.cutFrom k).get? n = if n < k then m.get? n else none := by
  rw [cutFrom, get?_filter]
  by_cases h : n < k <;> cases m.get? n <;> simp [h]

theorem GapFree.mono {lo' : Nat} (h : GapFree lo m) (hle : lo ≤ lo') : GapFree lo' m :=
  fun n k hlo hnk hk => h n k (hle.trans hlo) hnk hk

theorem gapFree_dropBelow : GapFree lo (m.dropBelow lo) ↔ GapFree lo m := by
  refine forall_congr' fun n => forall_congr' fun k => imp_congr_right fun hlo =>
    imp_congr_right fun hnk => ?_
  rw [get?_dropBelow, get?_dropBelow, if_pos hlo, if_pos (hlo.trans hnk)]

theorem GapFree.cutFrom (h : GapFree lo m) (k : Nat) : GapFree lo (m.cutFrom k) := by
  intro n j hlo hnj hj
  rw [get?_cutFrom] at hj ⊢
  split at hj
  next hlt =>
    rw [if_pos (hnj.trans_lt hlt)]
    exact h n j hlo hnj hj
  · exact absurd rfl hj

structure IsNext (lo : Nat) (m : OrdMap Nat V) (k : Nat) : Prop where
  above : lo ≤ k
  fresh : ∀ n, m.get? n ≠ none → n < k
  reached : ∀ n, lo ≤ n → n < k → m.get? n ≠ none

theorem IsNext.insert (h : IsNext lo m k) (v : V) : IsNext lo (m.insert k v) (k + 1) := by
  refine ⟨h.above.trans (Nat.le_succ k), fun n hn => ?_, fun n hlo hn => ?_⟩
  · rw [get?_insert] at hn
    split at hn
    next heq => exact heq ▸ Nat.lt_succ_self k
    · exact (h.fresh n hn).trans (Nat.lt_succ_self k)
  · rw [get?_insert]
    split
    · nofun
    next hne => exact h.reached n hlo (lt_of_le_of_ne (Nat.le_of_lt_succ hn) hne)

theorem IsNext.gapFree (h : IsNext lo m k) : GapFree lo m :=
  fun n j hlo hnj hj => h.reached n hlo (hnj.trans_lt (h.fresh j hj))

/-! ## Counting and the last entry -/

/-- A range has one entry for each index exactly when none is missing. -/
theorem length_range_eq_iff {hi : Nat} :
    (m.range lo hi).length = hi - lo ↔ ∀ n, lo ≤ n → n < hi → m.get? n ≠ none := by
  have hsorted : ((m.range lo hi).map (·.1)).Pairwise (· < ·) :=
    pairwise_map.mpr (m.sorted.sublist filter_sublist)
  have hnodup : ((m.range lo hi).map (·.1)).Nodup := hsorted.imp fun h => h.ne
  have hmem : ∀ n, n ∈ (m.range lo hi).map (·.1) ↔ m.get? n ≠ none ∧ lo ≤ n ∧ n < hi := by
    intro n
    rw [mem_map, Option.ne_none_iff_exists']
    constructor
    · rintro ⟨⟨k, v⟩, hk, rfl⟩
      obtain ⟨hget, hin⟩ := mem_range.mp hk
      exact ⟨⟨v, hget⟩, hin⟩
    · rintro ⟨⟨v, hget⟩, hin⟩
      exact ⟨(n, v), mem_range.mpr ⟨hget, hin⟩, rfl⟩
  have hsub : ((m.range lo hi).map (·.1)).toFinset ⊆ Finset.Ico lo hi := by
    intro n hn
    exact Finset.mem_Ico.mpr ((hmem n).mp (mem_toFinset.mp hn)).2
  have hcard : ((m.range lo hi).map (·.1)).toFinset.card = (m.range lo hi).length := by
    rw [toFinset_card_of_nodup hnodup, length_map]
  constructor
  · intro hlen n hlo hhi
    have heq := Finset.eq_of_subset_of_card_le hsub (by rw [Nat.card_Ico, hcard, hlen])
    have hn : n ∈ ((m.range lo hi).map (·.1)).toFinset := heq ▸ Finset.mem_Ico.mpr ⟨hlo, hhi⟩
    exact ((hmem n).mp (mem_toFinset.mp hn)).1
  · intro hall
    have heq : ((m.range lo hi).map (·.1)).toFinset = Finset.Ico lo hi := by
      refine hsub.antisymm fun n hn => ?_
      obtain ⟨hlo, hhi⟩ := Finset.mem_Ico.mp hn
      exact mem_toFinset.mpr ((hmem n).mpr ⟨hall n hlo hhi, hlo, hhi⟩)
    rw [← hcard, heq, Nat.card_Ico]

theorem last_spec (h : m.values.getLast? = some v) :
    ∃ k, m.get? k = some v ∧ ∀ n, m.get? n ≠ none → n ≤ k := by
  rw [values, getLast?_map, Option.map_eq_some_iff] at h
  obtain ⟨⟨k, w⟩, hlast, rfl⟩ := h
  obtain ⟨es, hes⟩ := getLast?_eq_some_iff.mp hlast
  refine ⟨k, mem_entries.mp (mem_of_getLast? hlast), fun n hn => ?_⟩
  obtain ⟨u, hu⟩ := Option.ne_none_iff_exists'.mp hn
  have hmem := mem_entries.mpr hu
  have hsorted := m.sorted
  rw [hes] at hmem hsorted
  rcases mem_append.mp hmem with hmem | hmem
  · exact ((pairwise_append.mp hsorted).2.2 _ hmem _ mem_cons_self).le
  cases mem_singleton.mp hmem
  exact le_rfl

theorem getLast?_values_eq_none : m.values.getLast? = none ↔ ∀ n, m.get? n = none := by
  rw [getLast?_eq_none_iff, values, map_eq_nil_iff, eq_nil_iff_forall_not_mem]
  constructor
  · intro h n
    by_contra hn
    obtain ⟨u, hu⟩ := Option.ne_none_iff_exists'.mp hn
    exact h _ (mem_entries.mpr hu)
  · rintro h ⟨n, u⟩ hmem
    rw [mem_entries, h] at hmem
    cases hmem

end OrdMap
