import NodusDb.Lsm.Lookup

/-!
# Scans against point reads

* `scan_agrees_with_get`: in every run whose commits come in the order of their timestamps, a scan
  yields the keys of the range in order, each with what `get` reads, unless it reopens a log that
  lacks the change of a savepoint.
* `scan_disagrees`: such a run.
-/

namespace NodusDb.Lsm

open LsmKvEngine

/-- What a scan yields is what point reads find. -/
def ScanAgrees (s : LsmKvEngine) : Prop :=
  ∀ start stop readTs, start ≤ stop →
    ∃ rows, s.scan start stop readTs = .ok rows ∧
      rows.Pairwise (fun a b => a.key < b.key) ∧
      ∀ k v n, (⟨k, v, n⟩ : KvPair Bytes) ∈ rows ↔
        (start ≤ k ∧ k < stop) ∧ s.get k readTs = .ok (some v) ∧
          (s.versionOf k readTs).map (·.version) = some n

section Runs

variable [ChainCodec]

theorem Inv.scanAgrees {s : LsmKvEngine} {m : Table Bytes} {W : Nat} {u : Bool}
    {layers : List Layer} {segs : List Segment}
    (h : Inv s m W u layers segs) : ScanAgrees s := by
  intro start stop readTs hle
  obtain ⟨rows, hscan, hsorted, hmem⟩ := scan_spec h.disk h.live.toAnswers h.increasing hle readTs
  refine ⟨rows, hscan, hsorted, fun k v n => ?_⟩
  rw [hmem, get_eq h.disk, Except.ok.injEq]
  refine and_congr_right fun _ => ?_
  cases s.versionOf k readTs with
  | none => simp
  | some e => simp

/-- In every run that reopens only complete logs, with each key's commits in the
order of their timestamps, scans agree with point reads. -/
theorem scan_agrees_with_get (ops : List Op) (t : Traced)
    (hr : Traced.RunOk Traced.Replayable .start ops t) (hinc : Increasing t.ref) :
    ScanAgrees t.engine := by
  obtain ⟨layers, segs, h⟩ := Traced.ok_of_run hr hinc
  exact h.scanAgrees

end Runs

/-- A savepoint whose change leaves the log with the next flush, then a reopen. -/
def flushedSavepointRun : List Op :=
  [.mutate (.writeIntent 1 [7] [10] 0), .mutate (.replaceIntent 1 [7] (.put [11]) 0),
   .mutate (.commit 1 5), .flush, .mutate (.writeIntent 2 [8] [12] 0), .reopen 0,
   .mutate (.commit 2 6)]

theorem scan_agrees_after_flushedSavepointRun :
    ∃ t, @Traced.RunOk bincode Traced.Replayable .start flushedSavepointRun t ∧
      Increasing t.ref ∧ ScanAgrees t.engine := by
  obtain ⟨t, ht, hinc⟩ :
      ∃ t, execOk (@Traced.apply bincode) Traced.Replayable .start flushedSavepointRun = some t ∧
        ∀ e ∈ t.ref.store.entries, e.2.state.commits.Pairwise fun a b => a.version < b.version := by
    decide +kernel
  have hinc := increasing_of_entries hinc
  have hr := run_of_execOk ht
  exact ⟨t, hr, hinc, @scan_agrees_with_get bincode _ t hr hinc⟩

/-- A write taken back, overwritten by another transaction and flushed away; an
unrelated intent keeps the old log in use. -/
def lostSavepointRun : List Op :=
  [.mutate (.writeIntent 1 [7] [10] 0), .mutate (.replaceIntent 1 [7] .clear 0),
   .mutate (.writeIntent 2 [7] [11] 0), .mutate (.writeIntent 3 [8] [12] 0),
   .mutate (.commit 1 5), .mutate (.commit 2 10), .flush, .reopen 0]

/-- After the reopen `get` reads the write that was taken back and `scan` the
newer version. -/
theorem scan_disagrees :
    ∃ t, exec (@Traced.apply bincode) .start lostSavepointRun = some t ∧ Increasing t.ref ∧
      t.engine.get [7] 10 = .ok (some [10]) ∧
      t.engine.scan [0] [9] 10 = .ok [⟨[7], [11], 10⟩] ∧ ¬ ScanAgrees t.engine := by
  obtain ⟨t, ht, hinc, hget, hscan⟩ :
      ∃ t, exec (@Traced.apply bincode) .start lostSavepointRun = some t ∧
        (∀ e ∈ t.ref.store.entries, e.2.state.commits.Pairwise fun a b => a.version < b.version) ∧
        t.engine.get [7] 10 = .ok (some [10]) ∧
        t.engine.scan [0] [9] 10 = .ok [⟨[7], [11], 10⟩] := by
    decide +kernel
  refine ⟨t, ht, increasing_of_entries hinc, hget, hscan, fun hagree => ?_⟩
  -- The row of the scan would have to be what `get` reads.
  obtain ⟨rows, hrows, -, hmem⟩ := hagree [0] [9] 10 (by decide)
  rw [hscan] at hrows
  cases hrows
  have hread := ((hmem [7] [11] 10).mp List.mem_cons_self).2.1
  rw [hget] at hread
  cases hread

end NodusDb.Lsm
