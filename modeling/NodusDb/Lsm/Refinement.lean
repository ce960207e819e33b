import NodusDb.Lsm.VersionScan

/-!
# The persistent engine refines the in-memory one

* `lsm_refines_mem`: after any run in which each key's commits come in the order of their
  timestamps, the engine reads as an in-memory engine that took the same mutations, at or above the
  largest watermark; a version scan agrees on the versions above it.
* `maintenance_keeps_reads`: flushes, compactions, collections and reopens change no such read.
* `collected_versions_missing`: a version scan that starts below the watermark.
-/

namespace NodusDb.Lsm

open LsmKvEngine List

section State

theorem key_asymm : Std.Asymm fun a b : KvPair Bytes => a.key < b.key :=
  ⟨fun _ _ hab hba => lt_asymm hab hba⟩

variable [ChainCodec] {s : LsmKvEngine} {m : Table Bytes} {W readTs : Nat} {u : Bool}
  {layers : List Layer} {segs : List Segment} {k : Bytes}

theorem Inv.versionOf_ref (h : Inv s m W u layers segs) (hW : W ≤ readTs) :
    s.versionOf k readTs = (m.chainAt k).newestVisible readTs ∨
    (s.versionOf k readTs = none ∧
      ∃ n, (m.chainAt k).newestVisible readTs = some n ∧ n.value = none) :=
  Lsm.versionOf_ref h.disk h.live.toAnswers h.ref h.increasing hW

theorem Inv.get_ref (h : Inv s m W u layers segs) (hW : W ≤ readTs) :
    s.get k readTs = .ok (MemKvEngine.get m k readTs) :=
  Lsm.get_ref h.disk h.live.toAnswers h.ref h.increasing hW

theorem Inv.scan_ref (h : Inv s m W u layers segs) (hW : W ≤ readTs) (start stop : Bytes) :
    s.scan start stop readTs = MemKvEngine.scan m start stop readTs := by
  by_cases hlt : stop < start
  · -- Both engines start with the range of a tree map.
    rw [LsmKvEngine.scan, MemKvEngine.scan, rangeEntries, rangeEntries, if_pos hlt, if_pos hlt]
    rfl
  have hle := not_lt.mp hlt
  obtain ⟨rows, hrows, hsorted, hmem⟩ := scan_spec h.disk h.live.toAnswers h.increasing hle readTs
  obtain ⟨rows', hrows', hsorted', hmem'⟩ := MemKvEngine.scan_spec m hle readTs
  have := key_asymm
  rw [hrows, hrows', eq_of_sorted_of_mem hsorted hsorted' fun row => ?_]
  rw [hmem, hmem']
  refine and_congr_right fun _ => ?_
  rcases h.versionOf_ref (k := row.key) hW with heq | ⟨hnone, n, hn, hdead⟩
  · rw [heq]
  rw [hnone, hn]
  simp [hdead]

/-- Two version scans agree above a watermark. At or below it the first has nothing else
than the second, and it has the newest version of each key unless that is a tombstone. -/
def AgreeAbove (W : Nat) :
    Except ReadFault (List (KvVersion Bytes)) → Except ReadFault (List (KvVersion Bytes)) → Prop
  | .ok rows, .ok refRows =>
    (∀ v ∈ rows, v ∈ refRows) ∧
    rows.filter (fun v => decide (W < v.version)) =
      refRows.filter (fun v => decide (W < v.version)) ∧
    ∀ v ∈ refRows, v.value ≠ none → v.version ≤ W →
      (∀ w ∈ refRows, w.key = v.key → w.version ≤ W → w.version ≤ v.version) → v ∈ rows
  | .error e, .error e' => e = e'
  | _, _ => False

theorem Inv.scanVersions_inverted (h : Inv s m W u layers segs) (hlt : stop < start)
    (sinceTs readTs : Nat) :
    s.scanVersions start stop sinceTs readTs = .error .invertedRange ∧
      MemKvEngine.scanVersions m start stop sinceTs readTs = .error .invertedRange := by
  rw [LsmKvEngine.scanVersions, MemKvEngine.scanVersions, h.disk.readTables, rangeEntries,
    rangeEntries, if_pos hlt, if_pos hlt]
  exact ⟨rfl, rfl⟩

theorem Inv.scanVersions_ref (h : Inv s m W u layers segs) (hW : W ≤ readTs)
    (hr : readTs < u64Max) (start stop : Bytes) (sinceTs : Nat) :
    AgreeAbove W (s.scanVersions start stop sinceTs readTs)
      (MemKvEngine.scanVersions m start stop sinceTs readTs) := by
  by_cases hlt : stop < start
  · obtain ⟨hlsm, href⟩ := h.scanVersions_inverted hlt sinceTs readTs
    rw [hlsm, href]
    rfl
  have hle := not_lt.mp hlt
  obtain ⟨rows, hrows, hsorted, hmem⟩ :=
    scanVersions_spec h.disk h.live.toAnswers h.increasing hle hr sinceTs
  obtain ⟨rows', hrows', hsorted', hmem'⟩ :=
    Lsm.scanVersions_ref h.ref h.increasing hle sinceTs readTs
  rw [hrows, hrows']
  refine ⟨fun v hv => ?_, ?_, fun v hv hlive hle hnewest => ?_⟩
  · obtain ⟨hin, e, he, hrest⟩ := (hmem v).mp hv
    exact (hmem' v).mpr ⟨hin, e, (h.live.layered v.key).union_sub he, hrest⟩
  · refine eq_of_sorted_of_mem (hsorted.filter _) (hsorted'.filter _) fun v => ?_
    rw [mem_filter, mem_filter, hmem, hmem', decide_eq_true_eq]
    constructor
    · rintro ⟨⟨hin, e, he, hrest⟩, hv⟩
      exact ⟨⟨hin, e, (h.live.layered v.key).union_sub he, hrest⟩, hv⟩
    · rintro ⟨⟨hin, e, he, hs, hr', hval, hver⟩, hv⟩
      rw [hver] at hv
      exact ⟨⟨hin, e, (h.live.layered v.key).comp.1 e he hv, hs, hr', hval, hver⟩, hver ▸ hv⟩
  · obtain ⟨hin, e, he, hs, hr', hval, hver⟩ := (hmem' v).mp hv
    -- A version between `sinceTs` and the watermark is listed, so none is newer.
    have hnew : ∀ f ∈ commitsAt m v.key, f.version ≤ W → f.version ≤ e.version := by
      intro f hf hfW
      by_cases hfs : sinceTs < f.version
      · have hlisted := (hmem' ⟨v.key, f.value, f.version⟩).mpr
          ⟨hin, f, hf, hfs, hfW.trans hW, rfl, rfl⟩
        exact hver ▸ hnewest _ hlisted rfl hfW
      · exact (not_lt.mp hfs).trans hs.le
    rcases (h.live.layered v.key).comp.2 e ⟨he, hver ▸ hle, hnew⟩ with hkept | ⟨hdead, -⟩
    · exact (hmem v).mpr ⟨hin, e, hkept, hs, hr', hval, hver⟩
    · exact absurd (hval.trans hdead) hlive

theorem Inv.scanVersions_eq (h : Inv s m W u layers segs) (hWr : W ≤ readTs)
    (hr : readTs < u64Max) (start stop : Bytes) (hW : W ≤ sinceTs) :
    s.scanVersions start stop sinceTs readTs =
      MemKvEngine.scanVersions m start stop sinceTs readTs := by
  have hagree := h.scanVersions_ref hWr hr start stop sinceTs
  by_cases hlt : stop < start
  · obtain ⟨hlsm, href⟩ := h.scanVersions_inverted hlt sinceTs readTs
    rw [hlsm, href]
  have hle := not_lt.mp hlt
  obtain ⟨rows, hrows, -, hmem⟩ :=
    scanVersions_spec h.disk h.live.toAnswers h.increasing hle hr sinceTs
  obtain ⟨rows', hrows', -, hmem'⟩ := Lsm.scanVersions_ref h.ref h.increasing hle sinceTs readTs
  rw [hrows, hrows'] at hagree ⊢
  -- Every listed version is above `sinceTs`, so nothing is filtered out.
  have hall : rows.filter (fun v => decide (W < v.version)) = rows := by
    refine filter_eq_self.mpr fun v hv => decide_eq_true ?_
    obtain ⟨-, e, -, hs, -, -, hver⟩ := (hmem v).mp hv
    exact hver ▸ hW.trans_lt hs
  have hall' : rows'.filter (fun v => decide (W < v.version)) = rows' := by
    refine filter_eq_self.mpr fun v hv => decide_eq_true ?_
    obtain ⟨-, e, -, hs, -, -, hver⟩ := (hmem' v).mp hv
    exact hver ▸ hW.trans_lt hs
  rw [← hall, ← hall', hagree.2.1]

end State

/-! ## Runs -/

/-- The in-memory engine after the mutations of a run. -/
def reference (ops : List Op) : MemKvEngine Bytes := ops.foldl refApply .empty

def Op.watermark : Op → Nat
  | .garbageCollect watermark => watermark
  | _ => 0

def largestWatermark (ops : List Op) : Nat := (ops.map Op.watermark).foldl max 0

def Op.isReplace : Op → Bool
  | .mutate m => m.isReplace
  | _ => false

section Runs

theorem increasing_of_foldl {ops : List Op} {m : Table Bytes} (hm : m.WF)
    (h : Increasing (ops.foldl refApply m)) : Increasing m := by
  induction ops generalizing m with
  | nil => exact h
  | cons op ops ih => exact (ih (wf_refApply hm op) h).of_refApply hm

variable [ChainCodec]

theorem Traced.apply_logged {t t' : Traced} {op : Op} (h : t.apply op = some t')
    (hop : op.isReplace = false) (hu : t.unlogged = false) :
    t'.unlogged = false ∧ t'.watermark = max t.watermark op.watermark ∧
      t.engine.apply op = some t'.engine := by
  obtain ⟨s, hs, rfl⟩ := Option.map_eq_some_iff.mp h
  refine ⟨?_, ?_, hs⟩
  · show ((t.unlogged || _) && _) = false
    rw [hu, Bool.false_or]
    cases op with
    | mutate mu =>
      show (unloggedBy t.engine.table mu && _) = false
      rw [unloggedBy_eq_false hop, Bool.false_and]
    | _ => rfl
  · cases op with
    | garbageCollect watermark => rfl
    | _ => exact (Nat.max_zero _).symm

theorem Traced.exec_of_ok (ops : List Op) {t : Traced} (hok : t.Ok) (hu : t.unlogged = false)
    (hwf : t.ref.WF) (hops : ∀ op ∈ ops, op.isReplace = false)
    (hinc : Increasing (ops.foldl refApply t.ref)) :
    ∃ t' : Traced, exec (fun s op => LsmKvEngine.apply s op) t.engine ops = some t'.engine ∧ t'.Ok ∧
      t'.ref = ops.foldl refApply t.ref ∧
      t'.watermark = (ops.map Op.watermark).foldl max t.watermark := by
  induction ops generalizing t with
  | nil => exact ⟨t, rfl, hok, rfl, rfl⟩
  | cons op ops ih =>
    have hop := hops op mem_cons_self
    have hrep : t.Replayable op := by
      cases op with
      | reopen now => exact hu
      | _ => trivial
    have hinc' : Increasing (refApply t.ref op) := increasing_of_foldl (wf_refApply hwf op) hinc
    obtain ⟨t₁, happly, hok₁, href⟩ := hok.apply hinc' hrep
    obtain ⟨hu₁, hw₁, hengine⟩ := apply_logged happly hop hu
    rw [foldl_cons, ← href] at hinc
    obtain ⟨t', hexec, hok', href', hw'⟩ := ih hok₁ hu₁ (href ▸ wf_refApply hwf op)
      (fun op' h' => hops op' (mem_cons_of_mem op h')) hinc
    refine ⟨t', ?_, hok', ?_, ?_⟩
    · rw [exec, hengine]
      exact hexec
    · rw [href', href, foldl_cons]
    · rw [hw', hw₁, map_cons, foldl_cons]

/-- After every run without savepoints whose commits come in order, the
persistent engine reads as the in-memory one at or above the largest watermark;
a version scan agrees on the versions above that watermark and on the newest one below. -/
theorem lsm_refines_mem (ops : List Op) (hops : ∀ op ∈ ops, op.isReplace = false)
    (hinc : Increasing (reference ops)) :
    ∃ s, exec (fun s op => LsmKvEngine.apply s op) fresh ops = some s ∧
      ∀ readTs, largestWatermark ops ≤ readTs →
        (∀ k, s.get k readTs = .ok (MemKvEngine.get (reference ops) k readTs)) ∧
        (∀ start stop,
          s.scan start stop readTs = MemKvEngine.scan (reference ops) start stop readTs) ∧
        (readTs < u64Max → ∀ start stop sinceTs,
          AgreeAbove (largestWatermark ops) (s.scanVersions start stop sinceTs readTs)
            (MemKvEngine.scanVersions (reference ops) start stop sinceTs readTs) ∧
          (largestWatermark ops ≤ sinceTs → s.scanVersions start stop sinceTs readTs =
            MemKvEngine.scanVersions (reference ops) start stop sinceTs readTs)) := by
  obtain ⟨t, hexec, ⟨layers, segs, h⟩, href, hw⟩ :=
    Traced.exec_of_ok ops Traced.ok_start rfl Table.wf_empty hops hinc
  have href' : t.ref = reference ops := href
  have hw' : t.watermark = largestWatermark ops := hw
  rw [href', hw'] at h
  refine ⟨t.engine, hexec, fun readTs hle => ⟨fun k => h.get_ref hle, h.scan_ref hle,
    fun hr start stop sinceTs => ⟨h.scanVersions_ref hle hr start stop sinceTs, fun hs =>
      h.scanVersions_eq hle hr start stop hs⟩⟩⟩

/-- In every state of a run, a flush, a compaction, a collection, another threshold and a reopen of
a complete log go through, keep the pending writes and change no read at or above the largest
watermark. -/
theorem maintenance_keeps_reads (ops : List Op) (t : Traced)
    (hr : Traced.RunOk Traced.Replayable .start ops t) (hinc : Increasing t.ref) (op : Op)
    (hop : ∀ mu, op ≠ .mutate mu) (hrep : t.Replayable op) :
    ∃ t', t.apply op = some t' ∧ t'.engine.table.SamePending t.engine.table ∧
      ∀ readTs, t'.watermark ≤ readTs →
        (∀ k, t'.engine.get k readTs = t.engine.get k readTs) ∧
        ∀ start stop, t'.engine.scan start stop readTs = t.engine.scan start stop readTs := by
  have href : refApply t.ref op = t.ref := by
    cases op with
    | mutate mu => exact absurd rfl (hop mu)
    | _ => rfl
  have hok := Traced.ok_of_run hr hinc
  obtain ⟨t', happly, ⟨layers', segs', h'⟩, href'⟩ := hok.apply (href.symm ▸ hinc) hrep
  obtain ⟨layers, segs, h⟩ := hok
  rw [href', href] at h'
  refine ⟨t', happly, fun k => by rw [h'.live.pending, h.live.pending], fun readTs hle => ?_⟩
  have hmono : t.watermark ≤ t'.watermark := by
    obtain ⟨s, -, rfl⟩ := Option.map_eq_some_iff.mp happly
    cases op with
    | garbageCollect watermark => exact Nat.le_max_left _ _
    | _ => exact le_rfl
  exact ⟨fun k => by rw [h'.get_ref hle, h.get_ref (hmono.trans hle)],
    fun start stop => by rw [h'.scan_ref hle, h.scan_ref (hmono.trans hle)]⟩

end Runs

/-- Two versions of a key, a flush, a deletion, a collection, a compaction and a
reopen. -/
def collectedRun : List Op :=
  [.mutate (.writeIntent 1 [7] [10] 0), .mutate (.commit 1 1), .flush,
   .mutate (.writeIntentBatch 2 [.put [7] [11], .put [8] [12]] 0), .mutate (.commitBatch [(2, 2)]),
   .flush, .mutate (.deleteIntent 3 [8] 0), .mutate (.commit 3 3), .garbageCollect 2, .compact,
   .reopen 0]

theorem lsm_refines_mem_collectedRun :
    ∃ s, exec (fun s op => @LsmKvEngine.apply bincode s op) fresh collectedRun = some s ∧
      s.get [7] 2 = .ok (some [11]) ∧ s.get [8] 3 = .ok none := by
  have hinc : Increasing (reference collectedRun) := increasing_of_entries (by decide +kernel)
  obtain ⟨s, hs, hreads⟩ := @lsm_refines_mem bincode collectedRun (by decide) hinc
  refine ⟨s, hs, ?_, ?_⟩
  · rw [(hreads 2 (by decide)).1]
    decide +kernel
  · rw [(hreads 3 (by decide)).1]
    decide +kernel

/-- Two versions of a key, the older of which is collected. -/
def hiddenVersionRun : List Op :=
  [.mutate (.writeIntent 1 [7] [10] 0), .mutate (.commit 1 1),
   .mutate (.writeIntent 2 [7] [11] 0), .mutate (.commit 2 2), .garbageCollect 2]

/-- A version scan from below the watermark misses the version collected. -/
theorem collected_versions_missing :
    ∃ s, exec (fun s op => @LsmKvEngine.apply bincode s op) fresh hiddenVersionRun = some s ∧
      Increasing (reference hiddenVersionRun) ∧ largestWatermark hiddenVersionRun = 2 ∧
      s.scanVersions [0] [9] 0 2 = .ok [⟨[7], some [11], 2⟩] ∧
      MemKvEngine.scanVersions (reference hiddenVersionRun) [0] [9] 0 2 =
        .ok [⟨[7], some [10], 1⟩, ⟨[7], some [11], 2⟩] := by
  obtain ⟨s, hs, hscan⟩ :
      ∃ s, exec (fun s op => @LsmKvEngine.apply bincode s op) fresh hiddenVersionRun = some s ∧
        s.scanVersions [0] [9] 0 2 = .ok [⟨[7], some [11], 2⟩] := by
    decide +kernel
  refine ⟨s, hs, increasing_of_entries (by decide +kernel), by decide, hscan, ?_⟩
  decide +kernel

/-- The first of these runs up to the compaction, which merges two files. -/
def flushedRun : List Op := collectedRun.take 9

theorem maintenance_keeps_reads_flushedRun :
    ∃ t t', @Traced.RunOk bincode Traced.Replayable .start flushedRun t ∧
      @Traced.apply bincode t .compact = some t' ∧ t'.engine.get [7] 2 = t.engine.get [7] 2 := by
  obtain ⟨t, ht, hinc, hW⟩ :
      ∃ t, execOk (@Traced.apply bincode) Traced.Replayable .start flushedRun = some t ∧
        (∀ e ∈ t.ref.store.entries, e.2.state.commits.Pairwise fun a b => a.version < b.version) ∧
        (@Traced.apply bincode t .compact).all (·.watermark ≤ 2) := by
    decide +kernel
  have hr := run_of_execOk ht
  obtain ⟨t', ht', -, hreads⟩ := @maintenance_keeps_reads bincode _ t hr (increasing_of_entries hinc)
    .compact (by rintro _ ⟨⟩) trivial
  rw [ht'] at hW
  exact ⟨t, t', hr, ht', (hreads 2 (by simpa using hW)).1 [7]⟩

end NodusDb.Lsm
