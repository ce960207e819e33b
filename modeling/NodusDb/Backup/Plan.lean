import NodusDb.Backup.Repository
import NodusDb.Lsm.Wal

/-!
# Planning a restore to a point in time

A plan takes the newest backup that is not above the target and the archived segments its replay
needs, read off the indexes that are there: from the last needed segment it walks back over the
predecessors to the first, and every segment on the way must be in the archive.
-/

namespace NodusDb

/-! ## The archive -/

/-- What the log reader finds in the bytes of a segment. -/
class WalReader where
  recover : Bytes → Result (List Lsm.WalRecord)

/-- What the index of a segment says about its records. -/
structure TxnIndex where
  recordTxnIds : List Uuid
  committedTxns : List WalCommittedTxn
  predecessor : Option Nat
  deriving DecidableEq

/-- One record of the loop of `wal_archive_txn_index`. -/
def indexRecord (index : TxnIndex) : Lsm.WalRecord → TxnIndex
  | .segmentHeader predecessor => { index with predecessor := predecessor }
  | .beginTxn txnId | .writeIntent txnId _ _ _ | .deleteIntent txnId _ _ =>
    { index with recordTxnIds := index.recordTxnIds ++ [txnId] }
  | .commitTxn txnId commitTs =>
    { index with committedTxns := index.committedTxns ++ [⟨txnId, commitTs⟩] }
  | .commitTxnBatchV1 commits =>
    { index with committedTxns := index.committedTxns ++ commits.map fun c => ⟨c.1, c.2⟩ }
  | .abortTxn _ | .checkpoint _ => index

def txnIndexOf (records : List Lsm.WalRecord) : TxnIndex := records.foldl indexRecord ⟨[], [], none⟩

def currentWalArchiveIndexVersion : Nat := 1

def WalCommittedTxn.le (a b : WalCommittedTxn) : Prop :=
  a.commitTs < b.commitTs ∨ a.commitTs = b.commitTs ∧ a.txnId ≤ b.txnId

instance (a b : WalCommittedTxn) : Decidable (a.le b) := inferInstanceAs (Decidable (_ ∨ _))

/-- A commit that the base does not have and the target does. -/
def WalCommittedTxn.inWindow (base target : Nat) (c : WalCommittedTxn) : Bool :=
  base < c.commitTs ∧ c.commitTs ≤ target

/-- The index `archive_wal_indexed` publishes. -/
def archiveIndex [Hashes] (filename data : Bytes) (index : TxnIndex) : WalArchiveIndex :=
  let recordTxnIds := dedupAdjacent (index.recordTxnIds.insertionSort (· ≤ ·))
  let committedTxns := dedupAdjacent (index.committedTxns.insertionSort WalCommittedTxn.le)
  { indexVersion := currentWalArchiveIndexVersion
    timelineId := defaultTimelineId
    segmentId := filename
    walObjectKey := walKey filename
    indexObjectKey := walIndexKey filename
    size := data.length
    checksum := Hashes.sha256 data
    firstCommitTs := (committedTxns.map (·.commitTs)).min?
    lastCommitTs := (committedTxns.map (·.commitTs)).max?
    recordTxnIds := recordTxnIds
    committedTxns := committedTxns
    predecessor := index.predecessor }

def BackupManifest.le (a b : BackupManifest) : Prop :=
  a.snapshotTs < b.snapshotTs ∨ a.snapshotTs = b.snapshotTs ∧ a.backupId ≤ b.backupId

instance (a b : BackupManifest) : Decidable (BackupManifest.le a b) :=
  inferInstanceAs (Decidable (_ ∨ _))

namespace BackupOrchestrator

/-- Keep an object that is there, if it has the same bytes. -/
def putWalObjectWithoutOverwrite (repo : BackupRepository) (key data : Bytes) :
    Result BackupRepository :=
  match repo.get? key with
  | none => .ok (repo.insert key data)
  | some existing =>
    if existing = data then .ok repo
    else .error "archived WAL collision: refusing to overwrite different bytes"

def publishWalArchiveIndex [BackupCodec] (repo : BackupRepository) (index : WalArchiveIndex) :
    Result BackupRepository :=
  match repo.get? index.indexObjectKey with
  | none => .ok (repo.insert index.indexObjectKey (BackupCodec.indexText index))
  | some body => do
    let existing ← required (BackupCodec.parseIndex body) "invalid JSON"
    ensure (existing = index)
      "archived WAL index collision: refusing to overwrite different metadata"
    pure repo

/-- Archive a segment, and publish its index. -/
def archiveWalIndexed [BackupCodec] [Hashes] (repo : BackupRepository)
    (source : Option (Option RecoveryGeneration)) (filename data : Bytes) (index : TxnIndex) :
    BackupRepository × Result WalArchiveIndex :=
  match syncRecoveryGeneration repo source with
  | (repo, .error e) => (repo, .error e)
  | (repo, .ok _) =>
    match putWalObjectWithoutOverwrite repo (walKey filename) data with
    | .error e => (repo, .error e)
    | .ok repo =>
      match publishWalArchiveIndex repo (archiveIndex filename data index) with
      | .error e => (repo, .error e)
      | .ok repo => (repo, .ok (archiveIndex filename data index))

/-! ## The plan -/

structure PitrRestoreWalSegment where
  segmentId : Bytes
  walObjectKey : Bytes
  indexObjectKey : Bytes
  firstCommitTs : Option Nat
  lastCommitTs : Option Nat
  checksum : Digest
  size : Nat
  deriving DecidableEq

structure PitrRestorePlan where
  planVersion : Nat
  clusterId : Bytes
  timelineId : Bytes
  baseBackupId : Bytes
  baseBackupChain : List Bytes
  baseSnapshotTs : Nat
  targetTs : Nat
  replayStartTs : Nat
  replayEndTs : Nat
  walSegments : List PitrRestoreWalSegment
  deriving DecidableEq

def currentPitrRestorePlanVersion : Nat := 1

/-- `str::parse::<u64>`. -/
def parseU64 (text : Bytes) : Option Nat :=
  (parseDigits (stripStart (ascii "+") text)).filter (· ≤ u64Max)

def walSegmentSequence (segmentId : Bytes) : Result Nat :=
  required (parseU64 ((stripSuffix (ascii ".log") segmentId).getD segmentId))
    "unsupported non-numeric WAL segment id"

/-- The indexes of a timeline from the floor on, with their sequence numbers. -/
def usableIndexes (walFloor : Nat) (timelineId : Bytes) :
    List WalArchiveIndex → Result (List (Nat × WalArchiveIndex))
  | [] => pure []
  | index :: indexes => do
    ensure (index.indexVersion = currentWalArchiveIndexVersion)
      "unsupported WAL archive index version"
    let sequence ← walSegmentSequence index.segmentId
    let usable ← usableIndexes walFloor timelineId indexes
    pure (if walFloor ≤ sequence ∧ index.timelineId = timelineId then (sequence, index) :: usable
      else usable)

def txnIdsNeeded (base target : Nat) (indexes : List (Nat × WalArchiveIndex)) : List Uuid :=
  ((indexes.flatMap (·.2.committedTxns)).filter (·.inWindow base target)).map (·.txnId)

/-- Whether a segment commits something in the window or has a record of such a
transaction. -/
def isNeeded (base target : Nat) (needed : List Uuid) (index : WalArchiveIndex) : Bool :=
  index.committedTxns.any (·.inWindow base target) ||
    index.recordTxnIds.any (· ∈ needed)

def neededSequences (base target : Nat) (indexes : List (Nat × WalArchiveIndex)) : List Nat :=
  (indexes.filter fun e => isNeeded base target (txnIdsNeeded base target indexes) e.2).map (·.1)

def indexesBySequence (indexes : List (Nat × WalArchiveIndex)) :
    Result (OrdMap Nat WalArchiveIndex) :=
  indexes.foldlM
    (fun bySequence e => do
      ensure (bySequence.get? e.1 = none) "duplicate WAL archive index"
      pure (bySequence.insert e.1 e.2))
    .empty

/-- Walk from a segment back to the first one over the predecessors, and take each
segment on the way. -/
def walkLineage (first current : Nat) (bySequence selected : OrdMap Nat WalArchiveIndex) :
    Result (OrdMap Nat WalArchiveIndex) :=
  match _h : bySequence.get? current with
  | none => .error "missing required WAL archive segment (broken segment lineage)"
  | some index =>
    if current = first then .ok (selected.insert current index)
    else
      match index.predecessor with
      | some p =>
        if first ≤ p then
          walkLineage first p (bySequence.erase current) (selected.insert current index)
        else .ok (selected.insert current index)
      | none => .ok (selected.insert current index)
termination_by bySequence.size
decreasing_by exact OrdMap.size_erase_lt (by simp [_h])

variable [BackupCodec] [Hashes] (repo : BackupRepository)

def planSegment (index : WalArchiveIndex) : Result PitrRestoreWalSegment := do
  let bytes ← repo.getObject index.walObjectKey
  ensure (bytes.length = index.size) "archived WAL object size mismatch"
  ensure (Hashes.sha256 bytes = index.checksum) "archived WAL object checksum mismatch"
  pure
    { segmentId := index.segmentId
      walObjectKey := index.walObjectKey
      indexObjectKey := index.indexObjectKey
      firstCommitTs := index.firstCommitTs
      lastCommitTs := index.lastCommitTs
      checksum := index.checksum
      size := index.size }

def planWalSegments (base : BackupManifest) (targetTs : Nat) :
    Result (List PitrRestoreWalSegment) := do
  let generation ← manifestGeneration repo base
  let loaded ← loadWalArchiveIndexes repo
  let indexes ← usableIndexes (generation.elim 0 (·.walFloor)) base.timelineId loaded
  let bySequence ← indexesBySequence indexes
  let needed := neededSequences base.snapshotTs targetTs indexes
  match needed.min?, needed.max? with
  | some first, some last => do
    let selected ← walkLineage first last bySequence .empty
    ensure (∀ sequence ∈ needed, selected.get? sequence ≠ none)
      "WAL segment needed for PITR is not on the archived segment lineage"
    selected.values.mapM (planSegment repo)
  | _, _ => pure []

/-- The newest complete backup that is not above the target; of equals, the last. -/
def baseFor (targetTs : Nat) : Result BackupManifest :=
  required
    (((scanManifests repo).completed.filter (·.snapshotTs ≤ targetTs)).foldl
      (fun best manifest =>
        match best with
        | none => some manifest
        | some b => if b.le manifest then some manifest else best)
      none)
    "no completed backup snapshot is at or before target_ts"

def validatePitrGeneration (source : Option (Option RecoveryGeneration)) (base : BackupManifest)
    (targetTs : Nat) : BackupRepository × Result Unit :=
  if targetTs = base.snapshotTs then (repo, .ok ())
  else
    let (repo, current) := syncRecoveryGeneration repo source
    (repo, do
      let current ← current
      let generation ← manifestGeneration repo base
      ensure (generation = current) "PITR base precedes a storage checkpoint")

/-- The ids from the oldest ancestor to the backup; there is no result without fuel. -/
def backupChainForRestore : Nat → BackupManifest → Option (Result (List Bytes))
  | 0, _ => none
  | fuel + 1, current =>
    match current.parentBackupId with
    | none => some (.ok [current.backupId])
    | some parentId =>
      match (do
          let parent ← loadManifest repo parentId
          validateChainGeneration repo parent current
          ensure (parent.status = .completed) "backup chain parent is not COMPLETE"
          pure parent : Result BackupManifest) with
      | .error e => some (.error e)
      | .ok parent => (backupChainForRestore fuel parent).map fun chain => do
        pure ((← chain) ++ [current.backupId])

/-- `plan_pitr_restore`, with the repository it leaves. -/
def planPitrRestore (fuel : Nat) (source : Option (Option RecoveryGeneration)) (targetTs : Nat) :
    BackupRepository × Option (Result PitrRestorePlan) :=
  match (do
      let base ← baseFor repo targetTs
      verify repo base.backupId
      pure base : Result BackupManifest) with
  | .error e => (repo, some (.error e))
  | .ok base =>
    match validatePitrGeneration repo source base targetTs with
    | (repo, .error e) => (repo, some (.error e))
    | (repo, .ok ()) =>
      (repo, (backupChainForRestore repo fuel base).map fun chain => do
        let baseBackupChain ← chain
        let walSegments ←
          if targetTs = base.snapshotTs then pure [] else planWalSegments repo base targetTs
        pure
          { planVersion := currentPitrRestorePlanVersion
            clusterId := base.clusterId
            timelineId := base.timelineId
            baseBackupId := base.backupId
            baseBackupChain := baseBackupChain
            baseSnapshotTs := base.snapshotTs
            targetTs := targetTs
            replayStartTs := base.snapshotTs
            replayEndTs := targetTs
            walSegments := walSegments })

/-- A call of `plan_pitr_restore` returns this plan. -/
def Plans (source : Option (Option RecoveryGeneration)) (targetTs : Nat) (plan : PitrRestorePlan) :
    Prop :=
  ∃ fuel, (planPitrRestore repo fuel source targetTs).2 = some (.ok plan)

end BackupOrchestrator

end NodusDb
