import NodusDb.Raft.BackupJobs
import NodusDb.Raft.Participant
import NodusDb.Raft.Resolution

/-!
# Applying commands

The commands a group's log may have, and what applying one does to the group.
Commands on the catalog and on upgrades are left out: they write neither user
data nor the records of transactions and migrations.
-/

namespace NodusDb.Raft

open Migration (EpochMutationV1 EpochIntentOperationV1 ReplacementV2 EpochCommitV1
  MigrationCommandV1 CommandV2 CommandV3 PhaseV3)

/-- A transaction id that older commands carry as a text is `none` when the text
is not an id. -/
inductive ShardCommand
  | putIntent (txn : Option Uuid) (key value : Bytes)
  | deleteIntent (txn : Option Uuid) (key : Bytes)
  | indexPutIntent (txn : Option Uuid) (key value : Bytes)
  | indexDeleteIntent (txn : Option Uuid) (key : Bytes)
  | commitTxn (txn : Option Uuid) (commitTs : UInt64)
  | abortTxn (txn : Option Uuid) (recorded : Bool)
  | prepareTxn (txn : Option Uuid)
  | updateShardMap (map : ShardMap)
  | updateShardPlacements (placements : Placements)
  | migrationV1 (cmd : MigrationCommandV1)
  | epochWriteV1 (epoch : UInt64) (mutation : EpochMutationV1)
  | migrationV2 (cmd : CommandV2)
  | epochPrepareV2 (epoch : UInt64) (txn : Uuid) (expectIntents : Bool)
  | epochRepairV2 (epoch : UInt64) (txn : Uuid) (key : Bytes) (replacement : ReplacementV2)
  | migrationV3 (cmd : CommandV3)
  | backupJobV1 (cmd : Backup.CommandV1)
  | updateShardMapConditional (table : TableId) (operation : Uuid) (phase : PhaseV3)
      (expected : Option ShardMap) (map : ShardMap)
  | updateShardPlacementsConditional (table : TableId) (operation : Uuid) (phase : PhaseV3)
      (expected placements : Placements)
  | epochWriteBatchV1 (epoch : UInt64) (txn : Uuid) (operations : List EpochIntentOperationV1)
  | epochCommitBatchV1 (epoch : UInt64) (commits : List EpochCommitV1)
  | txnAuthorityV1 (cmd : Authority.CommandV1)
  | txnParticipantV1 (cmd : Participant.CommandV1)
  | txnResolutionV1 (cmd : Resolution.CommandV1)
  deriving DecidableEq

namespace ShardCommand

def plainKey : ShardCommand → Option Bytes
  | putIntent _ key _ | deleteIntent _ key | indexPutIntent _ key _ | indexDeleteIntent _ key =>
    some key
  | _ => none

/-- The transactions that a command of the older protocols acts for. -/
def legacyIds : ShardCommand → List Uuid
  | putIntent txn _ _ | deleteIntent txn _ | indexPutIntent txn _ _ | indexDeleteIntent txn _
  | commitTxn txn _ | abortTxn txn _ | prepareTxn txn => txn.toList
  | epochWriteV1 _ mutation => [mutation.txn]
  | epochPrepareV2 _ txn _ | epochRepairV2 _ txn _ _ | epochWriteBatchV1 _ txn _ => [txn]
  | epochCommitBatchV1 _ commits => commits.map (·.txn)
  | _ => []

/-- Cleanup by a recorded id, which has no owner. -/
def recordedAbort : ShardCommand → Bool
  | abortTxn _ recorded => recorded
  | _ => false

end ShardCommand

namespace Participant

/-- Whether one of the transactions has a record. -/
def anyTracked (kv : Kv) : List Uuid → Result Bool
  | [] => pure false
  | id :: ids => do
    if (← read kv id).isSome then pure true else anyTracked kv ids

def rejectLegacy (kv : Kv) (cmd : ShardCommand) (tracking : Bool) :
    Result (Option ShardResponse) := do
  if cmd.recordedAbort then
    pure (some (reject "recorded-ID abort has no authoritative decision"))
  else if !tracking then pure none
  else if ← anyTracked kv cmd.legacyIds then
    pure (some (reject "tracked transaction requires participant protocol"))
  else pure none

end Participant

/-- A group: its key-value state, whether it may have participant records, and
the metadata store of the meta group. -/
structure Group where
  name : Bytes
  kv : Kv
  tracked : Bool
  store : Option MemMetaStore

namespace Group

/-- The same group with another key-value state. -/
def withKv (s : Group) (x : Result (Kv × ShardResponse)) : Result (Group × ShardResponse) :=
  x.map fun (kv, response) => ({ s with kv := kv }, response)

def withStore (s : Group) (x : Result (Option MemMetaStore × ShardResponse)) :
    Result (Group × ShardResponse) :=
  x.map fun (store, response) => ({ s with store := store }, response)

/-- A routing change without a journal, on a group that is not closed. -/
def reroute (s : Group) (change : MemMetaStore → MemMetaStore) : Result (Group × ShardResponse) := do
  let fence ← Migration.readFence s.kv
  if fence.any (·.closed) then pure (s, Migration.reject "schema/routing changes are fenced")
  else pure ({ s with store := s.store.map change }, accepted)

/-- A command without an epoch, on a group that has had no fence. The key, if
there is one, is not reserved. -/
def unfenced (s : Group) (key : Option Bytes) (x : Result (Kv × ShardResponse)) :
    Result (Group × ShardResponse) := do
  if key.any Migration.isControlKey then pure (s, Migration.reject "reserved migration key")
  else
    let fence ← Migration.readFence s.kv
    if fence.isSome then
      pure (s, Migration.reject "epoch is required on this participant; retry transaction")
    else s.withKv x

/-- A plain write; a transaction id that is none has no effect. -/
def writePlain (kv : Kv) (txn : Option Uuid) (op : EpochIntentOperationV1) :
    Result (Kv × ShardResponse) :=
  match txn with
  | none => pure (kv, accepted)
  | some txn =>
    Migration.respond kv (reject "write conflict; retry transaction")
      (kv.writeIntentImpl txn op.key op.toIntent.value 0)

/-- The vote on a transaction: whether it still has intents here. -/
def vote (kv : Kv) (txn : Option Uuid) : ShardResponse :=
  ⟨txn.all fun t => decide (kv.keysOf t ≠ []), none⟩

section Apply

theorem rejectLegacy_of_legacyIds {kv : Kv} {cmd : ShardCommand} {tracking : Bool}
    (hids : cmd.legacyIds = []) (hrecorded : cmd.recordedAbort = false) :
    Participant.rejectLegacy kv cmd tracking = .ok none := by
  cases tracking <;> simp [Participant.rejectLegacy, hids, hrecorded, Participant.anyTracked, pure,
    Except.pure, bind, Except.bind]

variable [Hashes] [Serde]

/-- Commands that need no participant record; the checks on participant records
and on upgrade keys come before. -/
def applyUntracked (s : Group) (cmd : ShardCommand) (index : UInt64) :
    Result (Group × ShardResponse) :=
  match cmd with
  | .migrationV1 cmd => s.withKv (Migration.applyControl s.kv cmd index s.store.isSome)
  | .epochPrepareV2 epoch txn expectIntents =>
    s.withKv (Migration.applyEpochPrepare s.kv epoch txn expectIntents)
  | .migrationV2 cmd => s.withKv (Migration.applyV2 s.kv cmd index s.store)
  | .migrationV3 cmd => s.withKv (Migration.applyV3 s.kv cmd index s.store)
  | .backupJobV1 cmd => s.withKv (Backup.apply s.kv cmd index)
  | .updateShardMapConditional table operation phase expected map =>
    s.withStore (Migration.applyConditionalMap s.kv table operation phase expected map s.store)
  | .updateShardPlacementsConditional table operation phase expected placements =>
    s.withStore
      (Migration.applyConditionalPlacements s.kv table operation phase expected placements s.store)
  | .epochRepairV2 epoch txn key replacement =>
    s.withKv (Migration.applyRepair s.kv epoch txn key replacement)
  | .epochWriteBatchV1 epoch txn operations =>
    s.withKv (Migration.applyWriteBatch s.kv epoch txn operations)
  | .epochCommitBatchV1 epoch commits => s.withKv (Migration.applyCommitBatch s.kv epoch commits)
  | .epochWriteV1 epoch mutation => s.withKv (Migration.applyEpochWrite s.kv epoch mutation)
  | .putIntent txn key value => s.unfenced key (writePlain s.kv txn (.put key value))
  | .deleteIntent txn key => s.unfenced key (writePlain s.kv txn (.delete key))
  | .indexPutIntent txn key value => s.unfenced key (writePlain s.kv txn (.put key value))
  | .indexDeleteIntent txn key => s.unfenced key (writePlain s.kv txn (.delete key))
  | .prepareTxn txn => s.unfenced none (pure (s.kv, vote s.kv txn))
  | .commitTxn txn commitTs =>
    s.unfenced none (pure (txn.elim s.kv fun t => s.kv.commit t commitTs.toNat, accepted))
  | .abortTxn txn _ => pure ({ s with kv := txn.elim s.kv s.kv.abort }, accepted)
  | .updateShardMap map => s.reroute (·.updateShardMap map)
  | .updateShardPlacements placements => s.reroute (·.updateShardPlacements placements)
  | .txnAuthorityV1 _ | .txnParticipantV1 _ | .txnResolutionV1 _ => pure (s, accepted)

def apply (s : Group) (cmd : ShardCommand) (index : UInt64) : Result (Group × ShardResponse) :=
  match cmd with
  | .txnResolutionV1 cmd =>
    if s.name ≠ shardMeta then pure (s, reject "resolution journal belongs to shard-meta")
    else s.withKv (Resolution.apply s.kv cmd index)
  | .txnParticipantV1 cmd =>
    { s with tracked := true }.withKv (Participant.apply s.kv s.name cmd index)
  | .txnAuthorityV1 cmd =>
    if s.name ≠ shardMeta then pure (s, reject "transaction authority belongs to shard-meta")
    else s.withKv (Authority.apply s.kv cmd index)
  | cmd =>
    if cmd.plainKey.any Upgrade.keyPrefix.isPrefixOf then
      pure (s, reject "reserved upgrade authority key")
    else do
      match ← Participant.rejectLegacy s.kv cmd s.tracked with
      | some response => pure (s, response)
      | none => s.applyUntracked cmd index

/-! ## Commands of no transaction -/

variable {s : Group} {index : UInt64}

theorem apply_migrationV1 (cmd : MigrationCommandV1) :
    s.apply (.migrationV1 cmd) index =
      s.withKv (Migration.applyControl s.kv cmd index s.store.isSome) := by
  rw [apply, rejectLegacy_of_legacyIds rfl rfl]
  · rfl
  all_goals nofun

theorem apply_migrationV2 (cmd : CommandV2) :
    s.apply (.migrationV2 cmd) index = s.withKv (Migration.applyV2 s.kv cmd index s.store) := by
  rw [apply, rejectLegacy_of_legacyIds rfl rfl]
  · rfl
  all_goals nofun

theorem apply_migrationV3 (cmd : CommandV3) :
    s.apply (.migrationV3 cmd) index = s.withKv (Migration.applyV3 s.kv cmd index s.store) := by
  rw [apply, rejectLegacy_of_legacyIds rfl rfl]
  · rfl
  all_goals nofun

end Apply

end Group

end NodusDb.Raft
