import NodusDb.Raft.Fence

/-!
# The second journal

The coordinator of a migration records in the meta group which sources it has
closed and which it has released again. A command reads the table's record,
decides, and saves the record with its change.
-/

namespace NodusDb.Raft.Migration

inductive StepV2
  | begin
  | requestCancel
  | ack (source : Bytes) (epoch : UInt64) (cancelled : Bool)
  | finish (cancelled : Bool)
  deriving DecidableEq, Repr

/-- A command on the record of a table, by one operation. -/
inductive CommandV2
  | plan (plan : PlanV2)
  | step (table : TableId) (operation : Uuid) (step : StepV2)
  | cancelParticipant (operation : Uuid) (expectedEpoch : UInt64)
  deriving DecidableEq

def PlanV2.routingMatches (plan : PlanV2) (store : MemMetaStore) : Bool :=
  decide (canonical plan.expectedMap = canonical (store.getShardMap plan.migration.tableId))

/-- Whether the sources are the meta group and every group of the expected map. -/
def coverageMatches (plan : MigrationPlan) (expectedMap : Option ShardMap) (store : MemMetaStore) :
    Result Bool := do
  let _ ← store.snapshot plan.tableId
  let expected := shardMeta ::
    ((expectedMap.map (·.shards)).getD []).map fun s => destinationGroup s.id
  pure (decide (plan.sources.head? = some shardMeta ∧ (∀ g ∈ expected, g ∈ plan.sources) ∧
    ∀ g ∈ plan.sources, g ∈ expected))

def maxPlanBytes : Nat := 128 * 1024

/-- Plan a migration of a table without an active one. -/
def planFreshV2 (kv : Kv) (store : MemMetaStore) (plan : PlanV2) : Result (Outcome RecordV2) := do
  let v1 ← readRecord kv plan.migration.tableId
  if v1.isSome then
    pure (.respond (reject "V1 journal requires explicit reconciliation before V2 planning"))
  else
    let v3 ← readRecordV3 kv plan.migration.tableId
    if v3.any (·.active) then pure (.respond (reject "V3 journal prevents V2 planning"))
    else if !plan.routingMatches store then
      pure (.respond (reject "source routing no longer matches the plan"))
    else if ← coverageMatches plan.migration plan.expectedMap store then
      pure (.save ⟨plan, .planned, .empty, .empty⟩)
    else pure (.respond (reject "plan does not cover every row/index source group"))

def planV2 (kv : Kv) (store : MemMetaStore) (plan : PlanV2) (current : Option RecordV2) :
    Result (Outcome RecordV2) :=
  if maxPlanBytes < plan.json.length ∨ ¬ ValidPlan plan.migration then
    pure (.respond (reject "invalid or oversized migration plan"))
  else
    match current with
    | none => planFreshV2 kv store plan
    | some record =>
      if record.plan.migration.operationId = plan.migration.operationId then
        pure (.respond (if record.plan = plan then accepted
          else reject "operation ID reused with a different plan"))
      else if record.phase ≠ .cancelled then
        pure (.respond (reject "table already has an active migration"))
      else planFreshV2 kv store plan

/-- The sources that have acknowledged: to be released again, or to be closed. -/
def RecordV2.acks (record : RecordV2) (cancelled : Bool) : OrdMap Bytes UInt64 :=
  if cancelled then record.cancelled else record.acquired

def RecordV2.step (record : RecordV2) (store : MemMetaStore) : StepV2 → Outcome RecordV2
  | .begin =>
    if record.phase = .fencing ∨ record.phase = .fenced then .respond accepted
    else if record.phase ≠ .planned ∨ !record.plan.routingMatches store then
      .respond (reject "cannot begin stale or cancelled migration")
    else .save { record with phase := .fencing }
  | .requestCancel =>
    if record.phase = .cancelled then .respond accepted
    else .save { record with phase := .cancelling }
  | .ack source epoch cancelled =>
    if record.plan.migration.nextEpoch source ≠ some epoch then
      .respond (reject "invalid source acknowledgement")
    else if record.phase ≠ (if cancelled then .cancelling else .fencing) then
      .respond (reject "acknowledgement belongs to an obsolete phase")
    else if cancelled then .save { record with cancelled := record.cancelled.insert source epoch }
    else .save { record with acquired := record.acquired.insert source epoch }
  | .finish cancelled =>
    let next : PhaseV2 := if cancelled then .cancelled else .fenced
    if record.phase = next then .respond accepted
    else if record.phase ≠ (if cancelled then .cancelling else .fencing) ∨
        (record.acks cancelled).size ≠ record.plan.migration.sources.length then
      .respond (reject "not every participant acknowledged this phase")
    else if !cancelled ∧ !record.plan.routingMatches store then
      .respond (reject "routing changed before fence completion")
    else .save { record with phase := next }

/-- What a command on the journal of a table decides. -/
def outcomeV2 (kv : Kv) (store : MemMetaStore) (table : TableId) (operation : Uuid) (step : StepV2) :
    Result (Outcome RecordV2) := do
  match ← readRecordV2 kv table with
  | none => pure (.respond (reject "migration journal is absent"))
  | some record =>
    if record.plan.migration.operationId ≠ operation then
      pure (.respond (reject "stale coordinator operation"))
    else pure (record.step store step)

/-- Apply a command; only the meta group has a metadata store. -/
def applyV2 [Hashes] (kv : Kv) (cmd : CommandV2) (index : UInt64) (store : Option MemMetaStore) :
    Result (Kv × ShardResponse) :=
  match cmd, store with
  | .cancelParticipant operation expectedEpoch, store =>
    applyCancelParticipant kv operation expectedEpoch index store.isSome
  | _, none => pure (kv, reject "coordinator journal belongs to the meta group")
  | .plan plan, some store =>
    journal kv (journalKeyV2 plan.migration.tableId) index fun kv => do
      (planV2 kv store plan (← readRecordV2 kv plan.migration.tableId)).map (.map .migrationV2)
  | .step table operation step, some store =>
    journal kv (journalKeyV2 table) index fun kv =>
      (outcomeV2 kv store table operation step).map (.map .migrationV2)

end NodusDb.Raft.Migration
