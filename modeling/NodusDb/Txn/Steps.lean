import NodusDb.Txn.Manager

/-!
# Steps of the transaction manager

What each step of `Sys.step` can do, as one inversion lemma a label, and two invariants of every
run: `Locks` says who holds the records lock, and `Table` that a record agrees with what was
returned to the callers.
-/

namespace NodusDb.Txn

open Function Option

/-! ## What each step does -/

namespace Sys

variable {t : Thread} {txnId : TxnId}

theorem beginDraw_inv {s s' : Sys} {wall : UInt64} (h : s.beginDraw t wall = some s') :
    s.pc t = .idle ∧
    s' = { s.setPc t (.begun (s.clock.hlc.tick wall.toNat).1) with
      clock := { s.clock with hlc := (s.clock.hlc.tick wall.toNat).2 } } := by
  unfold beginDraw at h
  split at h
  next hpc => exact ⟨hpc, (some.inj h).symm⟩
  · cases h

theorem beginInsert_inv {s s' : Sys} (h : s.beginInsert t txnId = some s') :
    ∃ r, s.pc t = .begun r ∧ s.lockFree = true ∧ s.readAt txnId = none ∧
    s' = { s.setPc t .idle with
      records := s.records.insert txnId ⟨txnId, .pending, r, none, []⟩
      readAt := update s.readAt txnId (some r) } := by
  unfold beginInsert at h
  split at h
  next r hpc =>
    split at h
    next hc => exact ⟨r, hpc, hc.1, hc.2, (some.inj h).symm⟩
    · cases h
  · cases h

theorem trackWrite_inv {s s' : Sys} {key : Bytes} (h : s.trackWrite txnId key = some s') :
    s.lockFree = true ∧
    ((s.records.get? txnId = none ∧ s' = s) ∨
     ∃ record, s.records.get? txnId = some record ∧
      s' = { s with
        records := s.records.insert txnId { record with writeSet := record.writeSet ++ [key] }
        tracked := Function.update s.tracked txnId (s.tracked txnId ++ [key]) }) := by
  unfold trackWrite at h
  split at h
  next hl =>
    refine ⟨hl, ?_⟩
    split at h
    next record hr => exact .inr ⟨record, hr, (some.inj h).symm⟩
    next hr => exact .inl ⟨hr, (some.inj h).symm⟩
  · cases h

theorem commitCheck_inv {s s' : Sys} (h : s.commitCheck t txnId = some s') :
    s.pc t = .idle ∧ s.lockFree = true ∧
    (s' = s ∨
     ∃ record, s.records.get? txnId = some record ∧
      (record.state = .pending ∨ record.state = .writing) ∧
      (s' = s.dropAborted txnId ∨
       conflicts s.records txnId record.readTs record.writeSet = false ∧
        s' = { s.setPc t (.checked txnId) with writer := some t })) := by
  unfold commitCheck at h
  split at h
  next hpc =>
    split at h
    next hl =>
      refine ⟨hpc, hl, ?_⟩
      split at h
      · exact .inl (some.inj h).symm
      next record hr =>
      split at h
      · exact .inl (some.inj h).symm
      next hst =>
      have hst' : record.state = .pending ∨ record.state = .writing := by
        by_contra hn
        exact hst (not_or.mp hn)
      refine .inr ⟨record, hr, hst', ?_⟩
      split at h
      · exact .inl (some.inj h).symm
      next hc => exact .inr ⟨by simpa using hc, (some.inj h).symm⟩
    · cases h
  · cases h

theorem commitTick_inv {s s' : Sys} {wall : UInt64} {saved : Bool}
    (h : s.commitTick t wall saved = some s') :
    ∃ txnId, s.pc t = .checked txnId ∧
    ∃ clock, clock.hlc = (s.clock.hlc.tick wall.toNat).2 ∧
    (s' = { s.setPc t (.stamped txnId (s.clock.hlc.tick wall.toNat).1) with clock := clock } ∨
     s' = { s.setPc t .idle with clock := clock, writer := none }) := by
  unfold commitTick at h
  split at h
  next txnId hpc =>
    refine ⟨txnId, hpc, ?_⟩
    simp only at h
    split at h
    next clock hc =>
      exact ⟨clock, reserveThrough_hlc hc, .inl (some.inj h).symm⟩
    · exact ⟨_, rfl, .inr (some.inj h).symm⟩
  · cases h

theorem commitFinish_inv {s s' : Sys} (h : s.commitFinish t = some s') :
    ∃ txnId ts record, s.pc t = .stamped txnId ts ∧ s.records.get? txnId = some record ∧
    s' = { s.setPc t .idle with
      records := reapFinished
        (s.records.insert txnId { record with state := .committed, commitTs := some ts })
      writer := none
      committedAt := update s.committedAt txnId (some ts) } := by
  unfold commitFinish at h
  split at h
  next txnId ts hpc =>
    split at h
    next record hr => exact ⟨txnId, ts, record, hpc, hr, (some.inj h).symm⟩
    · cases h
  · cases h

theorem abortTxn_inv {s s' : Sys} (h : s.abortTxn txnId = some s') :
    s.lockFree = true ∧
    (s' = s ∨
     ∃ record, s.records.get? txnId = some record ∧ record.state ≠ .committed ∧
      s' = s.dropAborted txnId) := by
  unfold abortTxn at h
  split at h
  next hl =>
    refine ⟨hl, ?_⟩
    split at h
    next record hr =>
      split at h
      · exact .inl (some.inj h).symm
      next hst => exact .inr ⟨record, hr, hst, (some.inj h).symm⟩
    · exact .inl (some.inj h).symm
  · cases h

theorem reap_inv {s s' : Sys} (h : s.reap = some s') :
    s.lockFree = true ∧ s' = { s with records := reapFinished s.records } := by
  unfold reap at h
  split at h
  next hl => exact ⟨hl, (some.inj h).symm⟩
  · cases h

theorem gcScan_inv {s s' : Sys} (h : s.gcScan t = some s') :
    s.pc t = .idle ∧ s.writer = none ∧
    ((∃ w, oldest isActive s.records = some w) ∧ s' = s ∨
     oldest isActive s.records = none ∧
      s' = { s.setPc t .noneActive with readers := t :: s.readers }) := by
  unfold gcScan at h
  split at h
  next hpc =>
    split at h
    next hw =>
      refine ⟨hpc, isNone_iff_eq_none.mp hw, ?_⟩
      split at h
      next w ho => exact .inl ⟨⟨w, ho⟩, (some.inj h).symm⟩
      next ho => exact .inr ⟨ho, (some.inj h).symm⟩
    · cases h
  · cases h

theorem gcNow_inv {s s' : Sys} (h : s.gcNow t = some s') :
    s.pc t = .noneActive ∧
    s' = { s.setPc t .idle with readers := s.readers.filter (· ≠ t) } := by
  unfold gcNow at h
  split at h
  next hpc => exact ⟨hpc, (some.inj h).symm⟩
  · cases h

theorem lockFree_iff {s : Sys} : s.lockFree = true ↔ s.writer = none ∧ s.readers = [] := by
  simp [lockFree]

end Sys

/-! ## The records lock -/

structure Locks (s : Sys) : Prop where
  exclusive : ∀ t, s.writer = some t → s.readers = []
  writing : ∀ t txnId, (s.pc t).commits = some txnId → s.writer = some t
  reading : ∀ t, s.pc t = .noneActive → t ∈ s.readers
  scanned : ∀ t ∈ s.readers, oldest isActive s.records = none

theorem txn_commits_of_stamped {s : Sys} {t : Thread} {txnId : TxnId} {ts : Nat}
    (h : s.pc t = .stamped txnId ts) : (s.pc t).commits = some txnId := by
  rw [h]; rfl

namespace Locks

theorem init (clock : ClockState) : Locks (Sys.init clock) := by
  constructor <;> simp [Sys.init, Pc.commits]

theorem not_commits (hi : Locks s) (hw : s.writer = none) (t : Thread) :
    (s.pc t).commits = none := by
  cases h : (s.pc t).commits with
  | none => rfl
  | some txnId => rw [hi.writing t txnId h] at hw; cases hw

theorem not_commits_after (hi : Locks s) (ht : (s.pc t).commits = some txnId) (u : Thread) :
    ((s.setPc t .idle).pc u).commits = none := by
  rw [Sys.setPc_pc]
  split
  · rfl
  next hne =>
  cases hc : (s.pc u).commits with
  | none => rfl
  | some id =>
    have hheld := (hi.writing t txnId ht).symm.trans (hi.writing u id hc)
    exact absurd (some.inj hheld).symm hne

theorem of_lockFree {s s' : Sys} (hi : Locks s) (hl : s.lockFree = true) (hpc : s'.pc = s.pc)
    (hw : s'.writer = s.writer) (hr : s'.readers = s.readers) : Locks s' := by
  have hnil : s'.readers = [] := hr.trans (Sys.lockFree_iff.mp hl).2
  refine ⟨fun _ _ => hnil, ?_, ?_, ?_⟩
  · rw [hpc, hw]; exact hi.writing
  · rw [hpc, hr]; exact hi.reading
  · rw [hnil]; simp

theorem step {s s' : Sys} {l : Label} (hi : Locks s) (h : s.step l = some s') : Locks s' := by
  obtain ⟨hex, hwr, hrd, hsc⟩ := hi
  cases l with
  | beginDraw t wall =>
    obtain ⟨hpc, rfl⟩ := Sys.beginDraw_inv h
    constructor <;> grind [update_apply, Pc.commits]
  | beginInsert t txnId =>
    obtain ⟨r, hpc, hl, -, rfl⟩ := Sys.beginInsert_inv h
    have hfree := Sys.lockFree_iff.mp hl
    constructor <;> grind [update_apply, Pc.commits]
  | trackWrite txnId key =>
    obtain ⟨hl, ⟨-, rfl⟩ | ⟨record, -, rfl⟩⟩ := Sys.trackWrite_inv h
    · exact ⟨hex, hwr, hrd, hsc⟩
    · exact of_lockFree ⟨hex, hwr, hrd, hsc⟩ hl rfl rfl rfl
  | commitCheck t txnId =>
    obtain ⟨hpc, hl, rfl | ⟨record, -, -, rfl | ⟨-, rfl⟩⟩⟩ := Sys.commitCheck_inv h
    · exact ⟨hex, hwr, hrd, hsc⟩
    · exact of_lockFree ⟨hex, hwr, hrd, hsc⟩ hl rfl rfl rfl
    · have hfree := Sys.lockFree_iff.mp hl
      constructor <;> grind [update_apply, Pc.commits]
  | commitTick t wall saved =>
    obtain ⟨txnId, hpc, clock, -, rfl | rfl⟩ := Sys.commitTick_inv h
    all_goals
      have hheld := hwr t txnId (by rw [hpc]; rfl)
      constructor <;> grind [update_apply, Pc.commits]
  | commitFinish t =>
    obtain ⟨txnId, ts, record, hpc, -, rfl⟩ := Sys.commitFinish_inv h
    have hheld := hwr t txnId (by rw [hpc]; rfl)
    have hnil := hex t hheld
    constructor <;> grind [update_apply, Pc.commits]
  | abortTxn txnId =>
    obtain ⟨hl, rfl | ⟨record, -, -, rfl⟩⟩ := Sys.abortTxn_inv h
    · exact ⟨hex, hwr, hrd, hsc⟩
    · exact of_lockFree ⟨hex, hwr, hrd, hsc⟩ hl rfl rfl rfl
  | reap =>
    obtain ⟨hl, rfl⟩ := Sys.reap_inv h
    exact of_lockFree ⟨hex, hwr, hrd, hsc⟩ hl rfl rfl rfl
  | gcScan t =>
    obtain ⟨hpc, hw, ⟨-, rfl⟩ | ⟨hnone, rfl⟩⟩ := Sys.gcScan_inv h
    · exact ⟨hex, hwr, hrd, hsc⟩
    · constructor <;> grind [update_apply, Pc.commits]
  | gcNow t wall =>
    obtain ⟨hpc, rfl⟩ := Sys.gcNow_inv h
    constructor <;> grind [update_apply, Pc.commits]

end Locks

/-! ## The records -/

/-- The records agree with the answers given so far. -/
structure Table (s : Sys) : Prop where
  keyed : ∀ txnId r, s.records.get? txnId = some r → r.txnId = txnId
  known : ∀ txnId r, s.records.get? txnId = some r →
    s.readAt txnId = some r.readTs ∧ r.writeSet = s.tracked txnId ∧ s.aborted txnId = false
  /-- Only two of the record states are ever stored. -/
  state : ∀ txnId r, s.records.get? txnId = some r →
    (r.state = .pending ∧ s.committedAt txnId = none) ∨
    (r.state = .committed ∧ r.commitTs = s.committedAt txnId ∧ s.committedAt txnId ≠ none)
  present : ∀ txnId, s.readAt txnId ≠ none → s.committedAt txnId = none →
    s.aborted txnId = false → s.records.get? txnId ≠ none
  committing : ∀ t txnId, (s.pc t).commits = some txnId →
    ∃ r, s.records.get? txnId = some r ∧ r.state = .pending
  fresh : ∀ txnId, s.readAt txnId = none →
    s.tracked txnId = [] ∧ s.committedAt txnId = none ∧ s.aborted txnId = false

namespace Table

theorem init (clock : ClockState) : Table (Sys.init clock) := by
  constructor <;> simp [Sys.init, Pc.commits]

variable {txnId : TxnId} {t : Thread} {record : TxnRecord}

theorem pending (hi : Table s) (hr : s.readAt txnId = some readTs)
    (hc : s.committedAt txnId = none) (ha : s.aborted txnId = false) :
    ∃ r, s.records.get? txnId = some r ∧ r.state = .pending ∧ r.readTs = readTs := by
  obtain ⟨r, hget⟩ := ne_none_iff_exists'.mp (hi.present txnId (by rw [hr]; simp) hc ha)
  refine ⟨r, hget, ?_, ?_⟩
  · obtain ⟨h, -⟩ | ⟨-, -, h⟩ := hi.state txnId r hget
    · exact h
    · exact absurd hc h
  · have := (hi.known txnId r hget).1
    rw [hr] at this
    exact (some.inj this).symm

theorem reap (hi : Table s) (hfree : ∀ t, (s.pc t).commits = none) :
    Table { s with records := reapFinished s.records } := by
  refine ⟨fun k r h => hi.keyed k r (get?_of_reapFinished h),
    fun k r h => hi.known k r (get?_of_reapFinished h),
    fun k r h => hi.state k r (get?_of_reapFinished h), ?_, ?_, hi.fresh⟩
  · intro k hr hc ha
    obtain ⟨r, hget⟩ := ne_none_iff_exists'.mp (hi.present k hr hc ha)
    have hopen : r.state = .pending := by
      obtain ⟨h, -⟩ | ⟨-, -, h⟩ := hi.state k r hget
      · exact h
      · exact absurd hc h
    rw [get?_reapFinished, hget]
    simp [reapKeeps, hopen, isOpen]
  · intro t txnId h
    rw [hfree t] at h
    cases h

theorem of_setPc (hi : Table s) (hr : s'.records = s.records) (hra : s'.readAt = s.readAt)
    (hca : s'.committedAt = s.committedAt) (hab : s'.aborted = s.aborted)
    (htr : s'.tracked = s.tracked) (hpc : s'.pc = (s.setPc t p).pc)
    (hp : ∀ txnId, p.commits = some txnId → ∃ r, s.records.get? txnId = some r ∧ r.state =
      .pending) : Table s' := by
  refine ⟨?_, ?_, ?_, ?_, ?_, ?_⟩
  · rw [hr]; exact hi.keyed
  · rw [hr, hra, htr, hab]; exact hi.known
  · rw [hr, hca]; exact hi.state
  · rw [hr, hra, hca, hab]; exact hi.present
  · intro u txnId hu
    rw [hpc, Sys.setPc_pc] at hu
    rw [hr]
    split at hu
    · exact hp txnId hu
    · exact hi.committing u txnId hu
  · rw [hra, hca, htr, hab]; exact hi.fresh

theorem insert_fresh (hi : Table s) (hfree : ∀ t, (s.pc t).commits = none)
    (hnew : s.readAt txnId = none) :
    Table { s.setPc t .idle with
      records := s.records.insert txnId ⟨txnId, .pending, readTs, none, []⟩
      readAt := update s.readAt txnId (some readTs) } := by
  obtain ⟨hk, hkn, hst, hpr, hco, hfr⟩ := hi
  constructor <;> grind [update_apply, Pc.commits, OrdMap.get?_insert]

theorem track (hi : Table s) (hfree : ∀ t, (s.pc t).commits = none)
    (hrec : s.records.get? txnId = some record) :
    Table { s with
      records := s.records.insert txnId { record with writeSet := record.writeSet ++ [key] }
      tracked := Function.update s.tracked txnId (s.tracked txnId ++ [key]) } := by
  obtain ⟨hk, hkn, hst, hpr, hco, hfr⟩ := hi
  constructor <;> grind [update_apply, OrdMap.get?_insert]

theorem dropAborted (hi : Table s) (hfree : ∀ t, (s.pc t).commits = none)
    (hrec : s.records.get? txnId = some record) : Table (s.dropAborted txnId) := by
  obtain ⟨hk, hkn, hst, hpr, hco, hfr⟩ := hi
  constructor <;> grind [OrdMap.get?_erase]

theorem publish (hi : Table s) (hfree : ∀ u, ((s.setPc t .idle).pc u).commits = none)
    (hrec : s.records.get? txnId = some record) :
    Table { s.setPc t .idle with
      records := s.records.insert txnId { record with state := .committed, commitTs := some ts }
      writer := none
      committedAt := update s.committedAt txnId (some ts) } := by
  obtain ⟨hk, hkn, hst, hpr, hco, hfr⟩ := hi
  constructor <;> grind [update_apply, OrdMap.get?_insert]

theorem step {s s' : Sys} {l : Label} (hi : Table s) (hl : Locks s) (h : s.step l = some s') :
    Table s' := by
  cases l with
  | beginDraw t wall =>
    obtain ⟨-, rfl⟩ := Sys.beginDraw_inv h
    exact hi.of_setPc rfl rfl rfl rfl rfl rfl (by simp [Pc.commits])
  | beginInsert t txnId =>
    obtain ⟨r, -, hfree, hnew, rfl⟩ := Sys.beginInsert_inv h
    exact hi.insert_fresh (hl.not_commits (Sys.lockFree_iff.mp hfree).1) hnew
  | trackWrite txnId key =>
    obtain ⟨hfree, ⟨-, rfl⟩ | ⟨record, hrec, rfl⟩⟩ := Sys.trackWrite_inv h
    · exact hi
    · exact hi.track (hl.not_commits (Sys.lockFree_iff.mp hfree).1) hrec
  | commitCheck t txnId =>
    obtain ⟨-, hfree, rfl | ⟨record, hrec, hopen, rfl | ⟨-, rfl⟩⟩⟩ := Sys.commitCheck_inv h
    · exact hi
    · exact hi.dropAborted (hl.not_commits (Sys.lockFree_iff.mp hfree).1) hrec
    refine hi.of_setPc rfl rfl rfl rfl rfl rfl ?_
    rintro id ⟨rfl⟩
    refine ⟨record, hrec, ?_⟩
    grind [hi.state txnId record hrec]
  | commitTick t wall saved =>
    obtain ⟨txnId, hpc, clock, -, rfl | rfl⟩ := Sys.commitTick_inv h
    · refine hi.of_setPc rfl rfl rfl rfl rfl rfl ?_
      rintro id ⟨rfl⟩
      exact hi.committing t txnId (by rw [hpc]; rfl)
    · exact hi.of_setPc rfl rfl rfl rfl rfl rfl (by simp [Pc.commits])
  | commitFinish t =>
    obtain ⟨txnId, ts, record, hpc, hrec, rfl⟩ := Sys.commitFinish_inv h
    have hothers := hl.not_commits_after (txn_commits_of_stamped hpc)
    exact (hi.publish hothers hrec).reap hothers
  | abortTxn txnId =>
    obtain ⟨hfree, rfl | ⟨record, hrec, -, rfl⟩⟩ := Sys.abortTxn_inv h
    · exact hi
    · exact hi.dropAborted (hl.not_commits (Sys.lockFree_iff.mp hfree).1) hrec
  | reap =>
    obtain ⟨hfree, rfl⟩ := Sys.reap_inv h
    exact hi.reap (hl.not_commits (Sys.lockFree_iff.mp hfree).1)
  | gcScan t =>
    obtain ⟨-, -, ⟨-, rfl⟩ | ⟨-, rfl⟩⟩ := Sys.gcScan_inv h
    · exact hi
    · exact hi.of_setPc rfl rfl rfl rfl rfl rfl (by simp [Pc.commits])
  | gcNow t wall =>
    obtain ⟨-, rfl⟩ := Sys.gcNow_inv h
    exact hi.of_setPc rfl rfl rfl rfl rfl rfl (by simp [Pc.commits])

end Table

theorem locks_and_table_of_run (h : Run Sys.Step (Sys.init clock) ls s) : Locks s ∧ Table s :=
  h.invariant (I := fun s => Locks s ∧ Table s) ⟨.init clock, .init clock⟩
    fun _ _ _ hi hs => ⟨hi.1.step hs, hi.2.step hi.1 hs⟩

/-! ## Transactions in flight -/

/-- `readTs` has been drawn for a transaction that has neither committed nor
aborted. The first case is a `begin_txn` that has not inserted its record. -/
def Sys.InFlight (s : Sys) (readTs : Nat) : Prop :=
  (∃ t, s.pc t = .begun readTs) ∨
  ∃ txnId, s.readAt txnId = some readTs ∧ s.committedAt txnId = none ∧ s.aborted txnId = false

end NodusDb.Txn
