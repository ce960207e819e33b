import NodusDb.Lsm.Invariant
import NodusDb.Lsm.Merge

/-!
# Reads in terms of layers

All reads of a key are reads of the union of its layers: `get` searches them from the top
(`versionOf_eq`), `scan` merges them (`scan_spec`), `scan_versions` lists them
(`scanVersions_spec`).
-/

namespace NodusDb

namespace Lsm

open LsmKvEngine List

def chainIn (data : Layer) (k : Bytes) : VersionChain Bytes :=
  (data.get? k).getD .empty

/-- The chains of a key from the memtable down. -/
def chainsAt (t : Table Bytes) (layers : List Layer) (k : Bytes) :
    List (VersionChain Bytes) :=
  t.chainAt k :: layers.map (chainIn · k)

/-- The layers of a key from the memtable down. -/
def stackAt (t : Table Bytes) (layers : List Layer) (k : Bytes) :
    List (Set (MvccValue Bytes)) :=
  commitsAt t k :: layers.map (layerAt · k)

section Stack

variable {t m : Table Bytes} {layers : List Layer} {W : Nat} {k : Bytes}

theorem commitSet_chainAt (h : t.WF) : (t.chainAt k).commitSet = commitsAt t k := by
  rw [h.chainAt_eq]
  exact Set.ext fun e => KeyState.mem_commitSet_chain _

section

variable (h : Answers t m layers W)
include h

theorem Answers.committed {e : MvccValue Bytes} (he : e ∈ unionAll (stackAt t layers k)) :
    e.isIntent = false :=
  (m.view k).committed e ((h.layered k).union_sub he)

theorem Answers.commitSets : (chainsAt t layers k).map (·.commitSet) = stackAt t layers k := by
  unfold chainsAt stackAt
  rw [map_cons, commitSet_chainAt h.wf, map_map]
  congr 1
  refine map_congr_left fun data hdata => Set.ext fun e => ?_
  have hmem : layerAt data k ∈ stackAt t layers k :=
    mem_cons_of_mem _ (mem_map_of_mem (f := (layerAt · k)) hdata)
  exact ⟨fun he => he.1, fun he => ⟨he, h.committed (k := k) ⟨_, hmem, he⟩⟩⟩

variable {readTs : Nat}

theorem Answers.newest_of_findSome {e : MvccValue Bytes}
    (hf : (chainsAt t layers k).findSome? (·.newestVisible readTs) = some e) :
    IsNewest MvccValue.version (unionAll (stackAt t layers k)) readTs e := by
  obtain ⟨pre, c, post, hsplit, hc, hpre⟩ := findSome?_eq_some_iff.mp hf
  have hcov := (h.layered k).cov
  have hstack := h.commitSets (k := k)
  rw [hsplit, map_append, map_cons] at hstack
  rw [show commitsAt t k :: _ = stackAt t layers k from rfl, ← hstack] at hcov
  rw [← hstack]
  refine newest_of_stack hcov (fun B hB b hb => ?_) (VersionChain.isNewest_of_newestVisible hc)
  obtain ⟨c', hc', rfl⟩ := mem_map.mp hB
  exact VersionChain.newestVisible_eq_none.mp (hpre c' hc') b hb

theorem Answers.none_of_findSome
    (hf : (chainsAt t layers k).findSome? (·.newestVisible readTs) = none) :
    ∀ a ∈ unionAll (stackAt t layers k), ¬ a.version ≤ readTs := by
  rintro a ⟨A, hA, ha⟩
  rw [← h.commitSets] at hA
  obtain ⟨c, hc, rfl⟩ := mem_map.mp hA
  exact VersionChain.newestVisible_eq_none.mp (findSome?_eq_none_iff.mp hf c hc) a ha

theorem Answers.newestVisible_of_union (hinc : Increasing m) {c : VersionChain Bytes}
    (hc : ∀ e, e ∈ c.commitSet ↔ e ∈ unionAll (stackAt t layers k)) (readTs : Nat) :
    c.newestVisible readTs = (chainsAt t layers k).findSome? (·.newestVisible readTs) := by
  cases hf : (chainsAt t layers k).findSome? (·.newestVisible readTs) with
  | none =>
    rw [VersionChain.newestVisible_eq_none]
    exact fun e he => h.none_of_findSome hf e ((hc e).mp he)
  | some e =>
    refine VersionChain.newestVisible_of_isNewest (fun a ha b hb => ?_) ?_
    · exact hinc.injOn k ((h.layered k).union_sub ((hc a).mp ha))
        ((h.layered k).union_sub ((hc b).mp hb))
    · rw [IsNewest.congr hc]
      exact h.newest_of_findSome hf

theorem Answers.read_ref (hm : m.WF) (hinc : Increasing m) (hW : W ≤ readTs) :
    (chainsAt t layers k).findSome? (·.newestVisible readTs) = (m.chainAt k).newestVisible readTs ∨
    ((chainsAt t layers k).findSome? (·.newestVisible readTs) = none ∧
      ∃ n, (m.chainAt k).newestVisible readTs = some n ∧ n.value = none) := by
  have hset := commitSet_chainAt (k := k) hm
  have hsub := (h.layered k).union_sub
  cases hn : (m.chainAt k).newestVisible readTs with
  | none =>
    left
    have hnone := VersionChain.newestVisible_eq_none.mp hn
    rw [hset] at hnone
    cases hf : (chainsAt t layers k).findSome? (·.newestVisible readTs) with
    | none => rfl
    | some e =>
      have he := h.newest_of_findSome hf
      exact absurd he.2.1 (hnone e (hsub he.1))
  | some n =>
    have hnew := VersionChain.isNewest_of_newestVisible hn
    rw [hset] at hnew
    cases hf : (chainsAt t layers k).findSome? (·.newestVisible readTs) with
    | none =>
      right
      refine ⟨rfl, n, rfl, ?_⟩
      rcases (h.layered k).comp.read hsub hW hnew with hA | ⟨hd, -⟩
      · exact absurd hA.2.1 (h.none_of_findSome hf n hA.1)
      · exact hd
    | some e =>
      left
      rw [(h.layered k).comp.read_conv hsub (hinc.injOn k) hW (h.newest_of_findSome hf) hnew]

end

end Stack

section Get

variable [ChainCodec] {disk : Disk} {layers : List Layer} {ids : List Nat}
  {k : Bytes} {readTs : Nat}

section

variable (h : List.Forall₂ (fun id data => disk.ssts.get? id = some (Sstable.build data)) ids layers)
include h

theorem versionFrom_eq :
    versionFrom disk k readTs ids =
      layers.findSome? fun data => (chainIn data k).newestVisible readTs := by
  induction h with
  | nil => rfl
  | @cons id data _ _ hget _ ih =>
    rw [versionFrom, hget, ih, findSome?_cons, Option.bind_some, Sstable.get_build, chainIn]
    cases data.get? k with
    | none => rfl
    | some c =>
      rw [Option.bind_some, Option.getD_some]
      cases c.newestVisible readTs <;> rfl

theorem getFrom_eq :
    getFrom disk k readTs ids = .ok ((versionFrom disk k readTs ids).bind (·.value)) := by
  induction h with
  | nil => rfl
  | @cons id data _ _ hget _ ih =>
    rw [getFrom, versionFrom, hget]
    simp only [Sstable.get_build, Option.bind_some]
    cases data.get? k with
    | none => exact ih
    | some c =>
      rw [Option.bind_some]
      simp only [VersionChain.readVisible]
      cases c.newestVisible readTs with
      | none => exact ih
      | some e =>
        obtain ⟨value, _, _, _, _⟩ := e
        cases value <;> rfl

end

variable {s : LsmKvEngine} {segs : List Segment}

theorem versionOf_eq (h : s.OnDisk layers segs) :
    s.versionOf k readTs = (chainsAt s.table layers k).findSome? (·.newestVisible readTs) := by
  rw [versionOf, versionFrom_eq h.tables, chainsAt, findSome?_cons, Table.chainAt, findSome?_map]
  cases s.table.store.get? k with
  | none => rfl
  | some c =>
    rw [Option.bind_some, Option.getD_some]
    cases c.newestVisible readTs <;> rfl

theorem get_eq (h : s.OnDisk layers segs) :
    s.get k readTs = .ok ((s.versionOf k readTs).bind (·.value)) := by
  rw [LsmKvEngine.get, versionOf]
  cases s.table.store.get? k with
  | none => exact getFrom_eq h.tables
  | some c =>
    rw [Option.bind_some]
    simp only [VersionChain.readVisible]
    cases c.newestVisible readTs with
    | none => exact getFrom_eq h.tables
    | some e =>
      obtain ⟨value, _, _, _, _⟩ := e
      cases value <;> rfl

omit [ChainCodec] in
theorem memGet_eq (m : Table Bytes) (k : Bytes) (readTs : Nat) :
    MemKvEngine.get m k readTs = ((m.chainAt k).newestVisible readTs).bind (·.value) := by
  rw [MemKvEngine.get, Table.chainAt]
  cases m.store.get? k with
  | none => rfl
  | some c => exact VersionChain.read_eq

variable {m : Table Bytes} {W : Nat}

theorem versionOf_ref (hd : s.OnDisk layers segs) (h : Answers s.table m layers W) (hm : m.WF)
    (hinc : Increasing m) (hW : W ≤ readTs) :
    s.versionOf k readTs = (m.chainAt k).newestVisible readTs ∨
    (s.versionOf k readTs = none ∧
      ∃ n, (m.chainAt k).newestVisible readTs = some n ∧ n.value = none) := by
  rw [versionOf_eq hd]
  exact h.read_ref hm hinc hW

theorem get_ref (hd : s.OnDisk layers segs) (h : Answers s.table m layers W) (hm : m.WF)
    (hinc : Increasing m) (hW : W ≤ readTs) :
    s.get k readTs = .ok (MemKvEngine.get m k readTs) := by
  rw [get_eq hd, memGet_eq]
  rcases versionOf_ref (k := k) hd h hm hinc hW with heq | ⟨hnone, n, hn, hdead⟩
  · rw [heq]
  rw [hnone, hn, Option.bind_some, hdead]
  rfl

end Get

section Scan

variable {k start stop : Bytes} {readTs : Nat}

theorem versionsIn_range (data : Layer) :
    versionsIn k (data.range start stop) =
      if start ≤ k ∧ k < stop then versionsAt data k else [] := by
  have hsorted : Sorted (data.range start stop) := data.sorted.sublist filter_sublist
  have hlookup : OrdMap.lookup k (data.range start stop) =
      if start ≤ k ∧ k < stop then data.get? k else none := by
    split
    next hin =>
      cases hget : data.get? k with
      | none =>
        cases hl : OrdMap.lookup k (data.range start stop) with
        | none => rfl
        | some c =>
          have := (OrdMap.mem_range.mp (OrdMap.mem_of_lookup hl)).1
          rw [hget] at this
          cases this
      | some c => exact OrdMap.lookup_of_mem hsorted (OrdMap.mem_range.mpr ⟨hget, hin⟩)
    next hout =>
      cases hl : OrdMap.lookup k (data.range start stop) with
      | none => rfl
      | some c => exact absurd (OrdMap.mem_range.mp (OrdMap.mem_of_lookup hl)).2 hout
  rw [versionsIn, hlookup]
  split <;> rfl

/-- The sources of a scan: the table files, oldest first, and the memtable. -/
def sourcesOf (t : Table Bytes) (layers : List Layer)
    (start stop : Bytes) : List (List Entry) :=
  (layers.reverse.map (·.range start stop)) ++ [t.store.range start stop]

theorem sorted_sourcesOf (t : Table Bytes) (layers : List Layer)
    (start stop : Bytes) : ∀ src ∈ sourcesOf t layers start stop, Sorted src := by
  intro src hsrc
  rcases mem_append.mp hsrc with hsrc | hsrc
  · obtain ⟨data, -, rfl⟩ := mem_map.mp hsrc
    exact data.sorted.sublist filter_sublist
  · rw [mem_singleton.mp hsrc]
    exact t.store.sorted.sublist filter_sublist

/-- All versions of a key, oldest layer first. -/
def allVersions (t : Table Bytes) (layers : List Layer) (k : Bytes) :
    List (MvccValue Bytes) :=
  layers.reverse.flatMap (versionsAt · k) ++ versionsAt t.store k

theorem mergedAt_sourcesOf (t : Table Bytes) (layers : List Layer) :
    mergedAt (sourcesOf t layers start stop) k =
      ⟨if start ≤ k ∧ k < stop then allVersions t layers k else []⟩ := by
  unfold mergedAt sourcesOf allVersions
  rw [flatMap_append, flatMap_map, flatMap_singleton]
  simp only [versionsIn_range]
  split
  · rfl
  · simp

variable {t m : Table Bytes} {layers : List Layer} {W : Nat}

theorem Answers.mem_allVersions (h : Answers t m layers W) {e : MvccValue Bytes} :
    e ∈ (⟨allVersions t layers k⟩ : VersionChain Bytes).commitSet ↔
      e ∈ unionAll (stackAt t layers k) := by
  have htable : e ∈ versionsAt t.store k ∧ e.isIntent = false ↔ e ∈ commitsAt t k := by
    rw [← commitSet_chainAt h.wf]
    rfl
  show e ∈ allVersions t layers k ∧ e.isIntent = false ↔ _
  constructor
  · rintro ⟨he, hi⟩
    rcases mem_append.mp he with he | he
    · obtain ⟨data, hdata, he⟩ := mem_flatMap.mp he
      refine ⟨layerAt data k, mem_cons_of_mem _ ?_, he⟩
      exact mem_map_of_mem (f := (layerAt · k)) (mem_reverse.mp hdata)
    · exact ⟨_, mem_cons_self, htable.mp ⟨he, hi⟩⟩
  · intro he
    refine ⟨?_, h.committed he⟩
    obtain ⟨A, hA, heA⟩ := he
    rcases mem_cons.mp hA with rfl | hA
    · exact mem_append_right _ (htable.mpr heA).1
    obtain ⟨data, hdata, rfl⟩ := mem_map.mp hA
    exact mem_append_left _
      (mem_flatMap.mpr ⟨data, mem_reverse.mpr hdata, heA⟩)

variable [ChainCodec] {s : LsmKvEngine} {segs : List Segment}

theorem scan_eq (h : s.OnDisk layers segs) (hle : start ≤ stop) :
    s.scan start stop readTs = .ok (lazyMergeScan readTs (sourcesOf s.table layers start stop)) := by
  rw [LsmKvEngine.scan, rangeEntries, if_neg (not_lt.mpr hle), h.readTables]
  show Except.ok (lazyMergeScan readTs (_ ++ [_])) = _
  rw [sourcesOf, map_map]
  congr 3
  exact map_congr_left fun data _ => Sstable.rangeIter_build data start stop

theorem scan_spec (hd : s.OnDisk layers segs) (h : Answers s.table m layers W) (hinc : Increasing m)
    (hle : start ≤ stop) (readTs : Nat) :
    ∃ rows, s.scan start stop readTs = .ok rows ∧
      rows.Pairwise (fun a b => a.key < b.key) ∧
      ∀ row, row ∈ rows ↔ (start ≤ row.key ∧ row.key < stop) ∧
        ∃ e, s.versionOf row.key readTs = some e ∧ e.value = some row.value ∧
          e.version = row.version := by
  obtain ⟨hsorted, hmem⟩ := lazyMergeScan_spec readTs
    (sorted_sourcesOf s.table layers start stop)
  refine ⟨_, scan_eq hd hle, hsorted, fun row => ?_⟩
  rw [hmem, MemKvEngine.rowOf_eq_some_iff, mergedAt_sourcesOf]
  split
  next hin =>
    rw [h.newestVisible_of_union hinc (fun e => h.mem_allVersions), versionOf_eq hd]
    simp [hin]
  next hout =>
  constructor
  · rintro ⟨-, e, he, -⟩
    cases he
  · exact fun hrow => absurd hrow.1 hout

end Scan

end Lsm

end NodusDb
