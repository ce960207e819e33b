import NodusDb.Backup.Plan

/-!
# Restoring to a point in time

A restore writes the versions of the base dump, each in a transaction of its own, and then runs the
records of the planned segments through the engine's checked interface. Commits above the target are
turned into aborts, and what is open at the end is aborted. Keys that belong to the source cluster
are left out (`isBackupExcludedKey`). The wall clock beside an intent does not change here.
-/

namespace NodusDb

/-! ## Keys that are left out -/

/-- A key without the namespace of its shard. -/
def shardNamespaceInner (key : Bytes) : Bytes :=
  if (ascii "shard-").isPrefixOf key then
    let rest := key.drop (ascii "shard-").length
    match rest.findIdx? (· = 0) with
    | some pos => rest.drop (pos + 1)
    | none => key
  else key

def recoveryGenerationKey : Bytes := 0 :: ascii "recovery" ++ 0 :: ascii "generation"

def isTransactionControlKey (key : Bytes) : Bool :=
  let inner := shardNamespaceInner key
  (1 :: ascii "txn-authority/").isPrefixOf inner ||
    (1 :: ascii "txn-participant/").isPrefixOf inner ||
    (1 :: ascii "txn-resolution/").isPrefixOf inner

def isBackupExcludedKey (key : Bytes) : Bool :=
  let inner := shardNamespaceInner key
  (0 :: ascii "raft" ++ [0]).isPrefixOf inner ||
    inner = recoveryGenerationKey ||
    (1 :: ascii "upgrade/").isPrefixOf inner ||
    (1 :: ascii "migration/").isPrefixOf inner ||
    (1 :: ascii "backup/").isPrefixOf inner ||
    isTransactionControlKey key

namespace BackupOrchestrator

structure PitrReplayReport where
  baseObjectsRestored : Nat := 0
  baseKvVersionsRestored : Nat := 0
  walSegmentsReplayed : Nat := 0
  recordsSeen : Nat := 0
  writesApplied : Nat := 0
  deletesApplied : Nat := 0
  commitsApplied : Nat := 0
  commitsSkipped : Nat := 0
  abortsApplied : Nat := 0
  pendingTxnsAborted : Nat := 0
  deriving DecidableEq

/-- An intent write of the destination engine. -/
def writeKv (kv : MemKvEngine Bytes) (txnId : TxnId) (key : Bytes) (value : Option Bytes)
    (now : Nat) : Result (MemKvEngine Bytes) :=
  (kv.writeIntentImpl txnId key value now).mapError fun _ => "write conflict"

/-! ## The base dump -/

/-- One row of a dump; a field is none if the JSON value does not have it in the form
expected. -/
structure DumpRow where
  key : Option Bytes
  version : Option Nat
  deleted : Option Bool
  value : Option Bytes
  deriving DecidableEq

class DumpReader where
  parseDump : Bytes → Option (List DumpRow)

structure RestoreState where
  kv : MemKvEngine Bytes
  /-- How many transaction ids were drawn. -/
  drawn : Nat
  report : PitrReplayReport

def restoreVersion (newTxnId : Nat → TxnId) (now : Nat) (st : RestoreState) (key : Bytes)
    (value : Option Bytes) (version : Nat) : Result RestoreState := do
  let txnId := newTxnId st.drawn
  let kv ← writeKv st.kv txnId key value now
  pure
    { kv := kv.commit txnId version
      drawn := st.drawn + 1
      report := { st.report with
        baseKvVersionsRestored := st.report.baseKvVersionsRestored + 1 } }

def restoreRow (newTxnId : Nat → TxnId) (now : Nat) (st : RestoreState) (row : DumpRow) :
    Result RestoreState :=
  match row.key with
  | none => pure st
  | some key =>
    if isBackupExcludedKey key then pure st
    else
      match row.version with
      | none => pure st
      | some version =>
        if row.deleted.getD false then restoreVersion newTxnId now st key none version
        else
          match row.value with
          | some value => restoreVersion newTxnId now st key (some value) version
          | none => pure { st with drawn := st.drawn + 1 }

def isRows (name : Bytes) : Bool :=
  name = ascii "kv_data.json" || name = ascii "meta.json" ||
    ((ascii "shard-").isPrefixOf name && (ascii ".json").isSuffixOf name)

def restoreObject [DumpReader] (newTxnId : Nat → TxnId) (now : Nat) (st : RestoreState)
    (object : BackupObject) : Result RestoreState :=
  if isRows object.name then do
    let dump ← required (DumpReader.parseDump object.bytes) "invalid JSON"
    dump.foldlM (restoreRow newTxnId now) st
  else pure st

/-- `restore_backup_objects_to_kv`; `newTxnId` are the random ids it draws. -/
def restoreBackupObjectsToKv [DumpReader] (newTxnId : Nat → TxnId) (now : Nat)
    (objects : List BackupObject) (kv : MemKvEngine Bytes) : Result RestoreState :=
  objects.foldlM (restoreObject newTxnId now)
    ⟨kv, 0, { baseObjectsRestored := objects.length }⟩

/-! ## The segments -/

structure PitrWalSegmentBytes where
  segmentId : Bytes
  bytes : Bytes
  deriving DecidableEq

structure ReplayState where
  kv : MemKvEngine Bytes
  /-- The transactions with writes that are neither committed nor aborted. -/
  activeTxns : List TxnId
  report : PitrReplayReport

/-- A commit up to the target is made, a later one is an abort. -/
def replayCommit (targetTs : Nat) (st : ReplayState) (c : TxnId × Nat) : ReplayState :=
  let activeTxns := st.activeTxns.filter (· ≠ c.1)
  if c.2 ≤ targetTs then
    { kv := st.kv.commit c.1 c.2
      activeTxns := activeTxns
      report := { st.report with commitsApplied := st.report.commitsApplied + 1 } }
  else
    { kv := st.kv.abort c.1
      activeTxns := activeTxns
      report := { st.report with commitsSkipped := st.report.commitsSkipped + 1 } }

def replayRecord (targetTs now : Nat) (st : ReplayState) (record : Lsm.WalRecord) :
    Result ReplayState :=
  let report := { st.report with recordsSeen := st.report.recordsSeen + 1 }
  match record with
  | .beginTxn txnId => pure ⟨st.kv, st.activeTxns.insert txnId, report⟩
  | .writeIntent txnId key value _ =>
    if isBackupExcludedKey key then pure { st with report := report }
    else do
      let kv ← writeKv st.kv txnId key (some value) now
      pure ⟨kv, st.activeTxns.insert txnId,
        { report with writesApplied := report.writesApplied + 1 }⟩
  | .deleteIntent txnId key _ =>
    if isBackupExcludedKey key then pure { st with report := report }
    else do
      let kv ← writeKv st.kv txnId key none now
      pure ⟨kv, st.activeTxns.insert txnId,
        { report with deletesApplied := report.deletesApplied + 1 }⟩
  | .commitTxn txnId commitTs =>
    pure (replayCommit targetTs { st with report := report } (txnId, commitTs))
  | .commitTxnBatchV1 commits =>
    pure (commits.foldl (replayCommit targetTs) { st with report := report })
  | .abortTxn txnId =>
    pure ⟨st.kv.abort txnId, st.activeTxns.filter (· ≠ txnId),
      { report with abortsApplied := report.abortsApplied + 1 }⟩
  | .checkpoint _ | .segmentHeader _ => pure { st with report := report }

variable [WalReader] [Hashes]

/-- One segment, which must be the one planned. -/
def replaySegment (targetTs now : Nat) (st : ReplayState)
    (e : PitrRestoreWalSegment × PitrWalSegmentBytes) : Result ReplayState := do
  ensure (e.1.segmentId = e.2.segmentId) "PITR replay segment order mismatch"
  ensure (e.2.bytes.length = e.1.size) "archived WAL segment size mismatch during replay"
  ensure (Hashes.sha256 e.2.bytes = e.1.checksum)
    "archived WAL segment checksum mismatch during replay"
  let records ← WalReader.recover e.2.bytes
  records.foldlM (replayRecord targetTs now)
    { st with report := { st.report with
      walSegmentsReplayed := st.report.walSegmentsReplayed + 1 } }

/-- `replay_pitr_wal_segments`: the engine it leaves and the report. -/
def replayPitrWalSegments (now : Nat) (plan : PitrRestorePlan) (segments : List PitrWalSegmentBytes)
    (kv : MemKvEngine Bytes) : Result (MemKvEngine Bytes × PitrReplayReport) := do
  ensure (plan.planVersion = currentPitrRestorePlanVersion) "unsupported PITR restore plan version"
  ensure (segments.length = plan.walSegments.length) "PITR replay segment count mismatch"
  let st ← (plan.walSegments.zip segments).foldlM (replaySegment plan.targetTs now) ⟨kv, [], {}⟩
  pure (st.activeTxns.foldl Table.abort st.kv,
    { st.report with pendingTxnsAborted := st.activeTxns.length })

end BackupOrchestrator

end NodusDb
