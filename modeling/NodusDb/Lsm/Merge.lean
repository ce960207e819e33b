import NodusDb.Lsm.Read

/-!
# The lazy merge

`mergeScan_spec` says what the merge of sorted sources yields: rows in strictly
ascending key order, and for each key the row that the versions of all sources
together give. The proof goes by rounds: the smallest front is taken from every
source that has it, and what is left of the sources lies above it.
-/

namespace NodusDb.Lsm

open List

/-- A source lists its keys in order, each once. -/
def Sorted (src : List Entry) : Prop := src.Pairwise fun a b => a.1 < b.1

def versionsIn (key : Bytes) (src : List Entry) : List (MvccValue Bytes) :=
  ((OrdMap.lookup key src).getD .empty).versions

/-- The versions of a key in all sources, in the order of the sources. -/
def mergedAt (sources : List (List Entry)) (key : Bytes) : VersionChain Bytes :=
  ⟨sources.flatMap (versionsIn key)⟩

theorem rowOf_key (h : MemKvEngine.rowOf readTs e = some row) : row.key = e.1 := by
  obtain ⟨value, -, rfl⟩ := Option.map_eq_some_iff.mp h
  rfl

theorem rowOf_empty (readTs : Nat) (key : Bytes) :
    MemKvEngine.rowOf readTs (key, (⟨[]⟩ : VersionChain Bytes)) = none := rfl

section Source

variable {src : List Entry} {key k : Bytes}

theorem lookup_eq_none_of_lt (h : ∀ e ∈ src, k < e.1) : OrdMap.lookup k src = none := by
  cases hl : OrdMap.lookup k src with
  | none => rfl
  | some v => exact absurd (h _ (OrdMap.mem_of_lookup hl)) (lt_irrefl k)

theorem Sorted.advance (h : Sorted src) : Sorted (advance key src) := by
  cases src with
  | nil => exact h
  | cons e src =>
    rw [Lsm.advance]
    split
    · exact (pairwise_cons.mp h).2
    · exact h

theorem lt_of_mem_advance (h : Sorted src) (hmin : ∀ e ∈ src, key ≤ e.1) :
    ∀ e ∈ advance key src, key < e.1 := by
  cases src with
  | nil => exact fun e he => absurd he not_mem_nil
  | cons e₀ src =>
    rw [advance]
    have hrest := (pairwise_cons.mp h).1
    split
    next heq =>
      intro e he
      rw [← heq]
      exact hrest e he
    next hne =>
    have hlt : key < e₀.1 := lt_of_le_of_ne (hmin e₀ mem_cons_self) fun he => hne he.symm
    intro e he
    rcases mem_cons.mp he with rfl | he
    · exact hlt
    · exact hlt.trans (hrest e he)

theorem frontOf_eq (h : Sorted src) (hmin : ∀ e ∈ src, key ≤ e.1) :
    frontOf key src = versionsIn key src := by
  cases src with
  | nil => rfl
  | cons e src =>
    rw [frontOf, versionsIn, OrdMap.lookup]
    by_cases heq : e.1 = key
    · rw [if_pos heq, if_pos heq.symm]
      rfl
    have hlt : key < e.1 := lt_of_le_of_ne (hmin e mem_cons_self) fun he => heq he.symm
    rw [if_neg heq, if_neg fun he => heq he.symm, lookup_eq_none_of_lt fun e' he' =>
      hlt.trans ((pairwise_cons.mp h).1 e' he')]
    rfl

theorem versionsIn_advance (hk : k ≠ key) : versionsIn k (advance key src) = versionsIn k src := by
  cases src with
  | nil => rfl
  | cons e src =>
    rw [advance]
    split
    next heq =>
      rw [versionsIn, versionsIn, OrdMap.lookup, if_neg fun he => hk (he.trans heq)]
    · rfl

theorem length_advance_le : (advance key src).length ≤ src.length := by
  cases src with
  | nil => exact le_rfl
  | cons e src =>
    rw [advance]
    split
    · exact Nat.le_succ _
    · exact le_rfl

theorem length_advance_lt (h : src.head?.map (·.1) = some key) :
    (advance key src).length < src.length := by
  cases src with
  | nil => cases h
  | cons e src =>
    have heq : e.1 = key := Option.some.inj h
    rw [advance, if_pos heq]
    exact Nat.lt_succ_self _

end Source

section Round

variable {sources : List (List Entry)} {key : Bytes}

theorem minKey_eq_none (h : minKey sources = none) : ∀ src ∈ sources, src = [] := by
  unfold minKey at h
  rw [min?_eq_none_iff, filterMap_eq_nil_iff] at h
  intro src hsrc
  have := h src hsrc
  cases src with
  | nil => rfl
  | cons e src => cases this

theorem minKey_eq_some (h : minKey sources = some key) (hs : ∀ src ∈ sources, Sorted src) :
    (∃ src ∈ sources, src.head?.map (·.1) = some key) ∧
    ∀ src ∈ sources, ∀ e ∈ src, key ≤ e.1 := by
  unfold minKey at h
  rw [min?_eq_some_iff] at h
  obtain ⟨hmem, hle⟩ := h
  refine ⟨mem_filterMap.mp hmem, fun src hsrc e he => ?_⟩
  cases src with
  | nil => exact absurd he not_mem_nil
  | cons e₀ src =>
    have hfront : key ≤ e₀.1 := hle e₀.1 (mem_filterMap.mpr ⟨_, hsrc, rfl⟩)
    rcases mem_cons.mp he with rfl | he
    · exact hfront
    · exact hfront.trans ((pairwise_cons.mp (hs _ hsrc)).1 e he).le

theorem sum_length_advance (h : ∃ src ∈ sources, src.head?.map (·.1) = some key) :
    ((sources.map (advance key)).map List.length).sum < (sources.map List.length).sum := by
  rw [map_map]
  obtain ⟨src, hsrc, hhead⟩ := h
  exact sum_lt_sum _ _ (fun src _ => length_advance_le) ⟨src, hsrc, length_advance_lt hhead⟩

theorem mergedAt_front (hs : ∀ src ∈ sources, Sorted src)
    (hmin : ∀ src ∈ sources, ∀ e ∈ src, key ≤ e.1) :
    (⟨sources.flatMap (frontOf key)⟩ : VersionChain Bytes) = mergedAt sources key := by
  rw [mergedAt]
  congr 1
  exact flatMap_congr fun src hsrc => frontOf_eq (hs src hsrc) (hmin src hsrc)

theorem mergedAt_advance (hk : k ≠ key) :
    mergedAt (sources.map (advance key)) k = mergedAt sources k := by
  rw [mergedAt, mergedAt, flatMap_map]
  congr 1
  exact flatMap_congr fun src _ => versionsIn_advance hk

theorem exists_of_rowOf
    (h : MemKvEngine.rowOf readTs (row.key, mergedAt sources row.key) = some row) :
    ∃ src ∈ sources, ∃ e ∈ src, e.1 = row.key := by
  by_contra hnone
  push Not at hnone
  have hempty : mergedAt sources row.key = ⟨[]⟩ := by
    rw [mergedAt]
    congr 1
    rw [flatMap_eq_nil_iff]
    intro src hsrc
    cases hl : OrdMap.lookup row.key src with
    | none => rw [versionsIn, hl]; rfl
    | some c => exact absurd rfl (hnone src hsrc _ (OrdMap.mem_of_lookup hl))
  rw [hempty, rowOf_empty] at h
  cases h

theorem no_row_of_empty (hall : ∀ src ∈ sources, src = []) (readTs : Nat) (row : KvPair Bytes) :
    ¬ MemKvEngine.rowOf readTs (row.key, mergedAt sources row.key) = some row := by
  intro hrow
  obtain ⟨src, hsrc, e, he, -⟩ := exists_of_rowOf hrow
  rw [hall src hsrc] at he
  exact absurd he not_mem_nil

end Round

/-! ## The merge -/

theorem mergeScan_spec (readTs fuel : Nat) (sources : List (List Entry))
    (hs : ∀ src ∈ sources, Sorted src) (hfuel : (sources.map List.length).sum ≤ fuel) :
    (mergeScan readTs fuel sources).Pairwise (fun a b => a.key < b.key) ∧
    ∀ row, row ∈ mergeScan readTs fuel sources ↔
      MemKvEngine.rowOf readTs (row.key, mergedAt sources row.key) = some row := by
  induction fuel generalizing sources with
  | zero =>
    refine ⟨List.Pairwise.nil, fun row => ⟨fun h => absurd h not_mem_nil, fun h => ?_⟩⟩
    refine absurd h (no_row_of_empty (fun src hsrc => ?_) readTs row)
    have hle := single_le_sum (fun _ _ => Nat.zero_le _) _
      (mem_map_of_mem (f := length) hsrc)
    exact length_eq_zero_iff.mp (Nat.le_zero.mp (hle.trans hfuel))
  | succ fuel ih =>
    rw [mergeScan]
    cases hmk : minKey sources with
    | none =>
      refine ⟨List.Pairwise.nil, fun row => ⟨fun h => absurd h not_mem_nil, fun h => ?_⟩⟩
      exact absurd h (no_row_of_empty (minKey_eq_none hmk) readTs row)
    | some key =>
      obtain ⟨hhead, hmin⟩ := minKey_eq_some hmk hs
      have hs' : ∀ src ∈ sources.map (advance key), Sorted src := by
        intro src hsrc
        obtain ⟨src₀, hsrc₀, rfl⟩ := mem_map.mp hsrc
        exact (hs src₀ hsrc₀).advance
      have habove : ∀ src ∈ sources.map (advance key), ∀ e ∈ src, key < e.1 := by
        intro src hsrc
        obtain ⟨src₀, hsrc₀, rfl⟩ := mem_map.mp hsrc
        exact lt_of_mem_advance (hs src₀ hsrc₀) (hmin src₀ hsrc₀)
      obtain ⟨hsorted, hmem⟩ := ih (sources.map (advance key)) hs'
        (Nat.le_of_lt_succ ((sum_length_advance hhead).trans_le hfuel))
      have hrest : ∀ row ∈ mergeScan readTs fuel (sources.map (advance key)), key < row.key := by
        intro row hrow
        obtain ⟨src, hsrc, e, he, heq⟩ := exists_of_rowOf ((hmem row).mp hrow)
        rw [← heq]
        exact habove src hsrc e he
      -- Rows of the smallest key come from this round, all others from the rest.
      have hiff : ∀ row, MemKvEngine.rowOf readTs (row.key, mergedAt sources row.key) = some row ↔
          MemKvEngine.rowOf readTs (key, mergedAt sources key) = some row ∨
          row ∈ mergeScan readTs fuel (sources.map (advance key)) := by
        intro row
        by_cases hk : row.key = key
        · rw [hk]
          refine ⟨.inl, fun h => h.elim id fun h => ?_⟩
          exact absurd (hrest row h) (hk ▸ lt_irrefl _)
        · rw [hmem, mergedAt_advance hk]
          refine ⟨.inr, fun h => h.elim (fun h => absurd (rowOf_key h) hk) id⟩
      simp only [mergedAt_front hs hmin]
      cases hrow : MemKvEngine.rowOf readTs (key, mergedAt sources key) with
      | none =>
        refine ⟨hsorted, fun row => ?_⟩
        rw [hiff, hrow]
        simp
      | some row₀ =>
        refine ⟨pairwise_cons.mpr ⟨fun row hr => ?_, hsorted⟩, fun row => ?_⟩
        · rw [rowOf_key hrow]
          exact hrest row hr
        · rw [hiff, hrow, mem_cons, Option.some.injEq, eq_comm]

theorem lazyMergeScan_spec (readTs : Nat) (hs : ∀ src ∈ sources, Sorted src) :
    (lazyMergeScan readTs sources).Pairwise (fun a b => a.key < b.key) ∧
    ∀ row, row ∈ lazyMergeScan readTs sources ↔
      MemKvEngine.rowOf readTs (row.key, mergedAt sources row.key) = some row :=
  mergeScan_spec readTs _ sources hs le_rfl

end NodusDb.Lsm
