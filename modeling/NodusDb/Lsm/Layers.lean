import NodusDb.Lsm.Files
import NodusDb.Lsm.History

/-!
# The layers of one key

What flush, compaction and garbage collection do to the versions of one key (`versionsAt`, as a set
`layerAt`), as moves of `Layered`: `layered_flushed`, `layered_compacted`, `layered_collected`.
-/

namespace NodusDb

open List

namespace KeyState

variable {V : Type}

/-- Drop the commits older than the one kept. -/
def keepFrom (s : KeyState V) (keep : MvccValue V) : KeyState V where
  commits := s.commits.filter fun v => decide (keep.version ≤ v.version)
  pending := s.pending
  committed m hm := s.committed m (List.mem_filter.mp hm).1

theorem keepFrom_chain (s : KeyState V) (keep : MvccValue V) :
    s.chain.keepFrom keep = (s.keepFrom keep).chain := by
  have hcommits : s.commits.filter (fun v => v.isIntent || decide (keep.version ≤ v.version)) =
      s.commits.filter fun v => decide (keep.version ≤ v.version) :=
    filter_congr fun m hm => by rw [s.committed m hm, Bool.false_or]
  show (⟨(s.commits ++ _).filter _⟩ : VersionChain V) = _
  rw [filter_append, hcommits]
  cases hp : s.pending <;> simp [chain, keepFrom, hp, MvccValue.intent]

theorem mem_commitSet_chain (s : KeyState V) : m ∈ s.chain.commitSet ↔ m ∈ s.commits := by
  show m ∈ s.commits ++ _ ∧ _ ↔ _
  rw [mem_append]
  constructor
  · rintro ⟨hm | hm, hi⟩
    · exact hm
    · obtain ⟨p, -, rfl⟩ := Option.map_eq_some_iff.mp (Option.mem_toList.mp hm)
      cases hi
  · exact fun hm => ⟨.inl hm, s.committed m hm⟩

theorem garbageCollect_chain (s : KeyState V) (watermark : Nat) :
    (s.chain.garbageCollect watermark .layered).1 = s.chain ∨
    ∃ keep ∈ s.commits, keep.version ≤ watermark ∧
      (s.chain.garbageCollect watermark .layered).1 = (s.keepFrom keep).chain := by
  rcases s.chain.garbageCollect_spec watermark .layered with h | ⟨keep, hn, h⟩
  · exact .inl h
  refine .inr ⟨keep, s.mem_commitSet_chain.mp hn.1, hn.2.1, ?_⟩
  rcases h with ⟨-, h⟩ | ⟨hmode, -⟩
  · rw [h, keepFrom_chain]
  · cases hmode

end KeyState

namespace Lsm

open LsmKvEngine

/-! ## The content of a key -/

def versionsAt (data : Layer) (k : Bytes) : List (MvccValue Bytes) :=
  ((data.get? k).getD .empty).versions

def layerAt (data : Layer) (k : Bytes) : Set (MvccValue Bytes) :=
  {e | e ∈ versionsAt data k}

def commitsAt (s : Table Bytes) (k : Bytes) : Set (MvccValue Bytes) := {e | e ∈ (s.view k).commits}

/-! ## Compaction -/

theorem versionsAt_mergeEntry (merged : Layer) (e : Entry) (k : Bytes) :
    versionsAt (mergeEntry merged e) k =
      versionsAt merged k ++ if k = e.1 then e.2.versions else [] := by
  unfold versionsAt mergeEntry
  rw [OrdMap.get?_insert]
  split
  next hk => rw [hk]; rfl
  · rw [append_nil]

theorem versionsAt_foldl (l : List Entry) (merged : Layer) (k : Bytes) :
    versionsAt (l.foldl mergeEntry merged) k =
      versionsAt merged k ++ l.flatMap fun e => if k = e.1 then e.2.versions else [] := by
  induction l generalizing merged with
  | nil => rw [foldl_nil, flatMap_nil, append_nil]
  | cons e l ih =>
    rw [foldl_cons, ih, versionsAt_mergeEntry, flatMap_cons, append_assoc]

theorem flatMap_entries (data : Layer) (k : Bytes) :
    (data.entries.flatMap fun e => if k = e.1 then e.2.versions else []) = versionsAt data k := by
  obtain ⟨l, hs⟩ := data
  show l.flatMap _ = ((OrdMap.lookup k l).getD .empty).versions
  induction l with
  | nil => rfl
  | cons e l ih =>
    obtain ⟨he, hl⟩ := pairwise_cons.mp hs
    rw [flatMap_cons]
    by_cases hk : k = e.1
    · have hrest : l.flatMap (fun e => if k = e.1 then e.2.versions else []) = [] := by
        rw [flatMap_eq_nil_iff]
        intro e' he'
        rw [if_neg]
        exact fun h' => lt_irrefl k (by simpa [← hk, ← h'] using he e' he')
      rw [if_pos hk, hrest, append_nil, OrdMap.lookup, if_pos hk]
      rfl
    · rw [if_neg hk, nil_append, OrdMap.lookup, if_neg hk]
      exact ih hl

theorem mem_dedup_sort {c : VersionChain Bytes} {e : MvccValue Bytes} :
    e ∈ dedupAdjacent (c.versions.insertionSort fun a b => a.version ≤ b.version) ↔
      e ∈ c.versions := by
  rw [mem_dedupAdjacent, mem_insertionSort]

/-- A compaction keeps a chain, cuts its old end off, or drops it because its
newest version is an old tombstone. -/
theorem mem_normalize (hc : ∀ e ∈ c.versions, e.isIntent = false) (watermark : Nat) :
    (∀ e, e ∈ (normalize watermark c).versions ↔ e ∈ c.versions) ∨
    (∃ keep ∈ c.versions, keep.version ≤ watermark ∧
      ∀ e, e ∈ (normalize watermark c).versions ↔
        e ∈ c.versions ∧ keep.version ≤ e.version) ∨
    (∃ keep ∈ c.versions, keep.version ≤ watermark ∧ keep.value = none ∧
      (∀ e ∈ c.versions, e.version ≤ keep.version) ∧ (normalize watermark c).versions = []) := by
  unfold LsmKvEngine.normalize
  generalize hsorted : (⟨dedupAdjacent (c.versions.insertionSort fun a b =>
    a.version ≤ b.version)⟩ : VersionChain Bytes) = c'
  have hmem : ∀ e, e ∈ c'.versions ↔ e ∈ c.versions := by
    intro e
    rw [← hsorted]
    exact mem_dedup_sort
  have hset : ∀ e, e ∈ c'.commitSet ↔ e ∈ c.versions := fun e =>
    ⟨fun h => (hmem e).mp h.1, fun h => ⟨(hmem e).mpr h, hc e h⟩⟩
  have hkept : ∀ keep e, e ∈ (c'.keepFrom keep).versions ↔
      e ∈ c.versions ∧ keep.version ≤ e.version := by
    intro keep e
    show e ∈ c'.versions.filter _ ↔ _
    rw [mem_filter, hmem]
    refine and_congr_right fun he => ?_
    rw [hc e he, Bool.false_or, decide_eq_true_eq]
  rcases c'.garbageCollect_spec watermark .complete with h | ⟨keep, hn, h⟩
  · left
    rw [h]
    exact hmem
  obtain ⟨hmode, -⟩ | ⟨-, h⟩ := h
  · cases hmode
  rw [h]
  have hkeep := (hset keep).mp hn.1
  rcases (c'.keepFrom keep).reclaimTombstone_spec watermark with hr | ⟨t, ht, hv, htw, hmax, hr⟩
  · rw [hr]
    exact .inr (.inl ⟨keep, hkeep, hn.2.1, hkept keep⟩)
  -- The tombstone is the version kept, so nothing stays.
  have htmem := (hkept keep t).mp ht.1
  have hle : ∀ e ∈ c.versions, e.version ≤ t.version := by
    intro e he
    rcases le_total keep.version e.version with hk | hk
    · exact hmax e ((hkept keep e).mpr ⟨he, hk⟩)
    · exact hk.trans htmem.2
  refine .inr (.inr ⟨t, htmem.1, htw, hv, hle, ?_⟩)
  rw [hr, filter_eq_nil_iff]
  intro e he
  have hek := (hkept keep e).mp he
  have htk : t.version ≤ keep.version := hn.2.2 t ((hset t).mpr htmem.1) htw
  have : e.version = t.version := le_antisymm (hle e hek.1) (htk.trans hek.2)
  simp [this]

variable [ChainCodec]

theorem versionsAt_mergeTables (ls : List Layer) (k : Bytes) :
    versionsAt (mergeTables (ls.map Sstable.build)) k = ls.flatMap (versionsAt · k) := by
  have hfold : ∀ (ls : List Layer) merged,
      versionsAt ((ls.map Sstable.build).foldl
        (fun merged t => t.iter.foldl mergeEntry merged) merged) k =
        versionsAt merged k ++ ls.flatMap (versionsAt · k) := by
    intro ls
    induction ls with
    | nil => exact fun merged => (append_nil _).symm
    | cons data ls ih =>
      intro merged
      rw [map_cons, foldl_cons, ih, Sstable.iter_build, versionsAt_foldl,
        flatMap_entries, flatMap_cons, append_assoc]
  exact hfold ls .empty

theorem versionsAt_compacted (ls : List Layer) (watermark : Nat)
    (k : Bytes) :
    versionsAt (compacted watermark (ls.map Sstable.build)) k =
      (normalize watermark ⟨ls.flatMap (versionsAt · k)⟩).versions := by
  rw [← versionsAt_mergeTables]
  unfold versionsAt compacted
  rw [OrdMap.get?_filter, OrdMap.get?_mapVals]
  cases (mergeTables (ls.map Sstable.build)).get? k with
  | none => rfl
  | some c =>
    show (Option.getD (Option.filter _ (some (normalize watermark c))) .empty).versions =
      (normalize watermark c).versions
    rw [Option.filter_some]
    split
    · rfl
    next he =>
    -- A dropped chain was empty.
    rw [Bool.not_eq_true, Bool.not_eq_false', List.isEmpty_iff] at he
    exact he.symm

/-- The newest visible version and a tombstone, as reads see them. -/
abbrev KeyLayered (H : Set (MvccValue Bytes)) (stack : List (Set (MvccValue Bytes))) (W : Nat) :
    Prop :=
  Layered MvccValue.version (fun e => e.value = none) H stack W

theorem layered_compacted {H U : Set (MvccValue Bytes)}
    {layers : List Layer} {k : Bytes} {W watermark : Nat}
    (h : KeyLayered H (U :: layers.map (layerAt · k)) W)
    (hcommitted : ∀ e ∈ H, e.isIntent = false) (hinj : Set.InjOn MvccValue.version H)
    (hw : watermark ≤ W) :
    KeyLayered H
      [U, layerAt (compacted watermark (layers.reverse.map Sstable.build)) k] W := by
  have hunion : unionAll (layers.map (layerAt · k)) =
      {e | e ∈ layers.reverse.flatMap (versionsAt · k)} := by
    ext e
    simp [unionAll, layerAt]
  have hm := h.merge
  rw [hunion] at hm
  have hsub := hm.sub _ (mem_cons_of_mem U mem_cons_self)
  have hlayer : layerAt (compacted watermark (layers.reverse.map Sstable.build)) k =
      {e | e ∈ (normalize watermark ⟨layers.reverse.flatMap (versionsAt · k)⟩).versions} := by
    unfold layerAt
    rw [versionsAt_compacted]
  rw [hlayer]
  rcases mem_normalize (c := ⟨layers.reverse.flatMap (versionsAt · k)⟩)
    (fun e he => hcommitted e (hsub he)) watermark with hn | ⟨keep, hk, hkw, hn⟩ |
    ⟨keep, hk, hkw, hdead, hmax, hn⟩
  · simp only [hn]
    exact hm
  · simp only [hn]
    exact hm.cut_lower (fun e he => he.1) hk (hkw.trans hw) fun e he hle => ⟨he, hle⟩
  · have hempty : {e : MvccValue Bytes | e ∈ ([] : List (MvccValue Bytes))} = ∅ := by simp
    rw [hn, hempty]
    exact hm.drop_lower hinj hk (hkw.trans hw) hmax hdead

/-! ## Garbage collection of the memtable -/

section Collect

omit [ChainCodec]

variable {s : LsmKvEngine} {k : Bytes} {watermark : Nat}

theorem chainAt_garbageCollect :
    (s.garbageCollect watermark).1.table.chainAt k =
      ((s.table.chainAt k).garbageCollect watermark .layered).1 :=
  Table.chainAt_collected s.table _ rfl k

/-- A collection leaves a key as it is or drops the commits below one that is
visible at the watermark. -/
theorem view_garbageCollect (h : s.table.WF) (watermark : Nat) (k : Bytes) :
    (s.garbageCollect watermark).1.table.view k = s.table.view k ∨
    ∃ keep ∈ (s.table.view k).commits, keep.version ≤ watermark ∧
      (s.garbageCollect watermark).1.table.view k = (s.table.view k).keepFrom keep := by
  unfold Table.view
  rw [chainAt_garbageCollect, h.chainAt_eq k]
  rcases (s.table.view k).garbageCollect_chain watermark with hg | ⟨keep, hk, hw, hg⟩
  · left
    rw [hg]
  right
  rw [hg]
  refine ⟨keep, ?_, hw, ?_⟩
  · rw [KeyState.state_chain]
    exact hk
  · rw [KeyState.state_chain, KeyState.state_chain]

theorem pending_garbageCollect (h : s.table.WF) :
    ((s.garbageCollect watermark).1.table.view k).pending = (s.table.view k).pending := by
  rcases view_garbageCollect h watermark k with hv | ⟨keep, -, -, hv⟩
  · rw [hv]
  rw [hv]
  rfl

theorem wf_garbageCollect (h : s.table.WF) : (s.garbageCollect watermark).1.table.WF := by
  refine ⟨fun k => ?_, fun k t ho => ?_⟩
  · rw [chainAt_garbageCollect, h.chainAt_eq k]
    rcases (s.table.view k).garbageCollect_chain watermark with hg | ⟨keep, -, -, hg⟩
    all_goals
      rw [hg]
      exact KeyState.tidy_chain _
  · rw [KeyState.owner_congr (pending_garbageCollect h)] at ho
    exact h.indexed k t ho

theorem layered_collected (h : s.table.WF) (hl : KeyLayered H (commitsAt s.table k :: Ls) W)
    (hw : watermark ≤ W) :
    KeyLayered H (commitsAt (s.garbageCollect watermark).1.table k :: Ls) W := by
  unfold commitsAt
  rcases view_garbageCollect h watermark k with hv | ⟨keep, hk, hkw, hv⟩
  · rw [hv]
    exact hl
  rw [hv]
  have hkept : ∀ e, e ∈ ((s.table.view k).keepFrom keep).commits ↔
      e ∈ (s.table.view k).commits ∧ keep.version ≤ e.version := by
    intro e
    show e ∈ filter _ _ ↔ _
    rw [mem_filter, decide_eq_true_eq]
  refine hl.cut_top ⟨fun e he => ((hkept e).mp he).1, fun a ha e he hle => ?_⟩ hk
    (hkw.trans hw) fun a ha hle => (hkept a).mpr ⟨ha, hle⟩
  exact (hkept e).mpr ⟨he, ((hkept a).mp ha).2.trans hle⟩

end Collect

section Flush

omit [ChainCodec]

variable {s : LsmKvEngine} {k : Bytes}

/-- The memtable after a flush: only the keys with intents stay. -/
def flushedTable (s : LsmKvEngine) : Table Bytes :=
  { s.table with store := s.table.store.filter fun key _ => decide (key ∈ s.activeKeys) }

theorem mem_activeKeys (h : k ∈ s.table.keysOf t) : k ∈ s.activeKeys := by
  unfold Table.keysOf at h
  cases hget : s.table.intents.get? t with
  | none =>
    rw [hget] at h
    exact absurd h not_mem_nil
  | some keys =>
    rw [hget] at h
    obtain ⟨e, he, rfl⟩ := mem_map.mp h
    refine mem_map_of_mem (mem_flatten.mpr ⟨keys, ?_, he⟩)
    exact OrdMap.mem_values.mpr ⟨t, hget⟩

theorem chainAt_flushedTable :
    (flushedTable s).chainAt k = if k ∈ s.activeKeys then s.table.chainAt k else .empty := by
  show ((OrdMap.filter _ _).get? k).getD VersionChain.empty = _
  rw [OrdMap.get?_filter]
  unfold Table.chainAt
  cases s.table.store.get? k with
  | none =>
    split <;> rfl
  | some c =>
    rw [Option.filter_some]
    split
    next h => rw [if_pos (of_decide_eq_true h)]
    next h => rw [if_neg (fun hk => h (decide_eq_true hk))]; rfl

theorem view_flushedTable :
    (flushedTable s).view k = if k ∈ s.activeKeys then s.table.view k else .empty := by
  rw [Table.view, chainAt_flushedTable]
  split
  · rfl
  · rfl

theorem pending_of_not_active (h : s.table.WF) (hk : k ∉ s.activeKeys) :
    (s.table.view k).pending = none := by
  cases hp : (s.table.view k).pending with
  | none => rfl
  | some p =>
    refine absurd (mem_activeKeys (h.indexed k p.1 ?_)) hk
    rw [KeyState.owner, hp]
    rfl

theorem pending_flushedTable (h : s.table.WF) :
    ((flushedTable s).view k).pending = (s.table.view k).pending := by
  rw [view_flushedTable]
  split
  · rfl
  next hk => rw [pending_of_not_active h hk]; rfl

theorem wf_flushedTable (h : s.table.WF) : (flushedTable s).WF := by
  refine ⟨fun k => ?_, fun k t ho => ?_⟩
  · rw [chainAt_flushedTable]
    split
    · exact h.tidy k
    · exact KeyState.tidy_chain KeyState.empty
  · rw [KeyState.owner_congr (pending_flushedTable h)] at ho
    exact h.indexed k t ho

theorem layerAt_toFlush (h : s.table.WF) :
    layerAt s.toFlush k = if k ∈ s.activeKeys then ∅ else commitsAt s.table k := by
  have hversions : versionsAt s.toFlush k =
      if k ∈ s.activeKeys then [] else (s.table.chainAt k).versions := by
    show (((OrdMap.filter _ _).get? k).getD VersionChain.empty).versions = _
    rw [OrdMap.get?_filter]
    unfold Table.chainAt
    cases s.table.store.get? k with
    | none => split <;> rfl
    | some c =>
      rw [Option.filter_some]
      split
      next hk => rw [if_neg (of_decide_eq_true hk)]
      next hk =>
      rw [decide_eq_true_eq, not_not] at hk
      rw [if_pos hk]
      rfl
  unfold layerAt commitsAt
  rw [hversions]
  split
  · exact Set.eq_empty_of_forall_notMem fun e he => absurd he not_mem_nil
  next hk =>
  rw [h.chainAt_eq k]
  show {e | e ∈ (s.table.view k).commits ++ _} = _
  rw [pending_of_not_active h hk]
  simp

variable {H Z : Set (MvccValue Bytes)} {Ls : List (Set (MvccValue Bytes))} {W : Nat}

theorem commitsAt_flushedTable :
    commitsAt (flushedTable s) k = if k ∈ s.activeKeys then commitsAt s.table k else ∅ := by
  unfold commitsAt
  rw [view_flushedTable]
  split
  · rfl
  · exact Set.eq_empty_of_forall_notMem fun e he => absurd he not_mem_nil

theorem layered_flushed (h : s.table.WF) (hl : KeyLayered H (commitsAt s.table k :: Ls) W) :
    KeyLayered H (commitsAt (flushedTable s) k :: layerAt s.toFlush k :: Ls) W := by
  rw [commitsAt_flushedTable, layerAt_toFlush h]
  split
  · exact hl.insert_empty
  · exact hl.push_empty

theorem layered_under (h : s.table.WF) (hl : KeyLayered H (commitsAt s.table k :: Ls) W)
    (hz : KeyLayered H (Z :: Ls) W) (hup : UpperIn MvccValue.version H Z) :
    KeyLayered H (Z :: layerAt s.toFlush k :: Ls) W := by
  rw [layerAt_toFlush h]
  split
  · exact hz.insert_empty
  · exact hz.insert_under hup hl

theorem commitsAt_of_nothing (h : s.table.WF) (h0 : s.toFlush.size = 0) :
    commitsAt (flushedTable s) k = commitsAt s.table k := by
  rw [commitsAt_flushedTable]
  split
  · rfl
  next hk =>
  have hlayer := layerAt_toFlush (k := k) h
  rw [if_neg hk] at hlayer
  rw [← hlayer]
  have hnone : s.toFlush.get? k = none := by
    show OrdMap.lookup k s.toFlush.entries = none
    rw [length_eq_zero_iff.mp h0]
    rfl
  unfold layerAt versionsAt
  rw [hnone]
  exact (Set.eq_empty_of_forall_notMem fun e he => absurd he not_mem_nil).symm

theorem view_of_none_retained (h0 : s.table.store.size = s.toFlush.size) :
    (flushedTable s).view k = .empty := by
  rw [view_flushedTable]
  split
  next hk =>
    have hall := length_filter_eq_length_iff.mp h0.symm
    unfold Table.view Table.chainAt
    cases hget : s.table.store.get? k with
    | none => rfl
    | some c =>
      have := hall (k, c) (OrdMap.mem_entries.mpr hget)
      exact absurd hk (of_decide_eq_true this)
  · rfl

end Flush

end Lsm

end NodusDb
