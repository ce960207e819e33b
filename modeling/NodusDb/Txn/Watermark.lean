import NodusDb.Txn.Steps

/-!
# The garbage-collection watermark

Versions at or below the value `gc_watermark` returns may be collected, so it must not exceed the
read timestamp of a transaction in flight. `begin_txn` draws its timestamp before its record is in
the table; `Covered` says that an older record or the clock covers every such timestamp.

* `watermark_safe_iff_covered`: all values returned are safe exactly when all steps are covered.
* `watermark_unsafe`: a run with an unsafe value.
-/

namespace NodusDb.Txn

namespace Sys

/-- What `gc_watermark` returns at this step, if anything, protects every
snapshot in flight. -/
def WatermarkSafe (s : Sys) (l : Label) : Prop :=
  ∀ w, s.gcWatermark l = some w → ∀ r, s.InFlight r → w ≤ r

/-- At a returning step of `gc_watermark`, every drawn timestamp whose record is
not yet inserted is protected all the same. -/
def Covered (s : Sys) : Label → Prop
  | .gcScan _ => oldest isActive s.records ≠ none → ∀ t r, s.pc t = .begun r →
      ∃ txnId record, s.records.get? txnId = some record ∧ isActive record.state = true ∧
        record.readTs ≤ r
  | .gcNow _ wall => ∀ t r, s.pc t = .begun r → wall.toNat ≤ r ∧ s.clock.hlc.last ≤ r
  | _ => True

end Sys

namespace WatermarkLemmas

variable {s : Sys}

theorem safe_gcScan_iff (hi : Table s) (t : Thread) :
    s.WatermarkSafe (.gcScan t) ↔ s.Covered (.gcScan t) := by
  constructor
  · intro h hne u r hu
    obtain ⟨w, hw⟩ := Option.ne_none_iff_exists'.mp hne
    obtain ⟨txnId, record, hget, hact, rfl⟩ := exists_of_oldest hw
    exact ⟨txnId, record, hget, hact, h _ hw r (.inl ⟨u, hu⟩)⟩
  · rintro h w hw r (⟨u, hu⟩ | ⟨txnId, hr, hc, ha⟩)
    · have hw' : oldest isActive s.records = some w := hw
      obtain ⟨txnId, record, hget, hact, hle⟩ := h (by rw [hw']; simp) u r hu
      exact (oldest_le hw' hget hact).trans hle
    · obtain ⟨record, hget, hst, rfl⟩ := hi.pending hr hc ha
      exact oldest_le hw hget (by rw [hst]; rfl)

theorem safe_gcNow_iff (hl : Locks s) (hi : Table s) {t : Thread} {wall : UInt64}
    (hpc : s.pc t = .noneActive) : s.WatermarkSafe (.gcNow t wall) ↔ s.Covered (.gcNow t wall) := by
  have hnone := hl.scanned t (hl.reading t hpc)
  constructor
  · intro h u r hu
    exact max_le_iff.mp (h _ rfl r (.inl ⟨u, hu⟩))
  · rintro h w ⟨rfl⟩ r (⟨u, hu⟩ | ⟨txnId, hr, hc, ha⟩)
    · exact max_le_iff.mpr (h u r hu)
    · obtain ⟨record, hget, hst, -⟩ := hi.pending hr hc ha
      exact absurd hnone (oldest_ne_none hget (by rw [hst]; rfl))

theorem safe_iff {s' : Sys} {l : Label} (hl : Locks s) (hi : Table s) (h : s.Step l s') :
    s.WatermarkSafe l ↔ s.Covered l := by
  cases l with
  | gcScan t => exact safe_gcScan_iff hi t
  | gcNow t wall => exact safe_gcNow_iff hl hi (Sys.gcNow_inv h).1
  | _ => exact iff_of_true (fun _ hw => by cases hw) trivial

end WatermarkLemmas

/-- In every run, the values `gc_watermark` returns protect every issued
snapshot exactly when each returning step finds every drawn but unregistered
read timestamp covered. -/
theorem watermark_safe_iff_covered (clock : ClockState) (ls : List Label) :
    Along Sys.Step Sys.WatermarkSafe (Sys.init clock) ls ↔
      Along Sys.Step Sys.Covered (Sys.init clock) ls := by
  constructor
  · intro h bs l cs s u hls hrun hstep
    obtain ⟨hl, hi⟩ := locks_and_table_of_run hrun
    exact (WatermarkLemmas.safe_iff hl hi hstep).mp (h bs l cs s u hls hrun hstep)
  · intro h bs l cs s u hls hrun hstep
    obtain ⟨hl, hi⟩ := locks_and_table_of_run hrun
    exact (WatermarkLemmas.safe_iff hl hi hstep).mpr (h bs l cs s u hls hrun hstep)

/-- Thread `0` draws timestamp `5` and has not inserted its record when thread
`1` finds no active transaction. -/
def drawnUnregistered : Sys :=
  (exec Sys.step (Sys.init ⟨⟨0⟩, 0⟩) [.beginDraw 0 5, .gcScan 1]).getD (Sys.init ⟨⟨0⟩, 0⟩)

/-- From there thread `1` returns the wall clock, `6`. -/
theorem watermark_unsafe :
    ¬ ∀ clock ls, Along Sys.Step Sys.WatermarkSafe (Sys.init clock) ls := by
  intro h
  have hrun : Run Sys.Step (Sys.init ⟨⟨0⟩, 0⟩) [.beginDraw 0 5, .gcScan 1] drawnUnregistered :=
    run_of_exec rfl
  have hstep : drawnUnregistered.Step (.gcNow 1 6)
      { drawnUnregistered.setPc 1 .idle with
        readers := drawnUnregistered.readers.filter (· ≠ 1) } := rfl
  have hle := h ⟨⟨0⟩, 0⟩ _ _ _ [] _ _ rfl hrun hstep 6 (by decide) 5 (.inl ⟨0, by decide⟩)
  exact absurd hle (by decide)

end NodusDb.Txn
