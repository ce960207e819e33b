import NodusDb.Raft.JournalV2

/-!
# The third journal

A migration copies the data of its sources to its destinations and then publishes the new routing,
through conditional commands that its journal allows. Each phase waits for acknowledgements; after
`publishing` the migration can only complete.
-/

namespace NodusDb.Raft.Migration

inductive StepV3
  | begin
  | requestCancel
  | ack (source : Bytes) (epoch : UInt64) (cancelled : Bool)
  | prepareAck (destination : Bytes)
  | copyCheckpoint (source : Bytes) (checkpoint : CheckpointV3)
  | validationReport (report : ValidationV3)
  | publish
  | completeAck (source : Bytes)
  | cleanupAck (destination : Bytes)
  | finish (phase : PhaseV3) (protectedReadTs : Option UInt64)
  deriving DecidableEq, Repr

/-- A command on the record of a table, by one operation. -/
inductive CommandV3
  | plan (plan : PlanV3)
  | step (table : TableId) (operation : Uuid) (step : StepV3)
  | cancelParticipant (operation : Uuid) (expectedEpoch : UInt64)
  deriving DecidableEq

/-! ## Routing content -/

/-- The placements while the destinations are prepared: those expected, and
the final ones of the destinations. -/
def PlanV3.preparePlacements (plan : PlanV3) : Placements :=
  ((plan.destinationMap.map (·.shards)).getD []).foldl
    (fun placements shard =>
      match plan.destinationPlacements.get? shard.id with
      | some node => placements.insert shard.id node
      | none => placements)
    plan.expectedPlacements

def mapMatches (map : Option ShardMap) (store : MemMetaStore) (table : TableId) : Bool :=
  decide (canonical map = canonical (store.getShardMap table))

def placementsMatch (placements : Placements) (store : MemMetaStore) : Bool :=
  decide (canonicalPlacements placements = canonicalPlacements store.getShardPlacements)

/-- The routing is what it was when the plan was made. -/
def PlanV3.routingMatches (plan : PlanV3) (store : MemMetaStore) : Bool :=
  mapMatches plan.expectedMap store plan.migration.tableId &&
    placementsMatch plan.expectedPlacements store

/-- The routing is what it is after the preparation. -/
def PlanV3.cutoverRoutingMatches (plan : PlanV3) (store : MemMetaStore) : Bool :=
  mapMatches plan.expectedMap store plan.migration.tableId &&
    placementsMatch plan.preparePlacements store

def PlanV3.published (plan : PlanV3) (store : MemMetaStore) : Bool :=
  mapMatches plan.destinationMap store plan.migration.tableId &&
    placementsMatch plan.destinationPlacements store

/-! ## Steps -/

/-- The record is on the successful path, after the phase. -/
def RecordV3.past (record : RecordV3) (phase : PhaseV3) : Bool :=
  match record.phase.ordinal, phase.ordinal with
  | some current, some target => target < current
  | _, _ => false

namespace RecordV3

variable (record : RecordV3) (store : MemMetaStore)

def begin : Outcome RecordV3 :=
  if record.past .planned then .respond accepted
  else if record.phase ≠ .planned ∨ !record.plan.routingMatches store then
    .respond (reject "cannot begin stale or cancelled migration")
  else .save { record with phase := .fencing }

def requestCancel : Outcome RecordV3 :=
  match record.phase with
  | .cancelling | .cancelled => .respond accepted
  | .publishing | .completing | .done =>
    .respond (reject "publication committed; the operation can only complete")
  | _ => .save { record with phase := .cancelling }

def ack (source : Bytes) (epoch : UInt64) (cancelled : Bool) : Outcome RecordV3 :=
  if record.plan.migration.nextEpoch source ≠ some epoch then
    .respond (reject "invalid source acknowledgement")
  else if (if cancelled then record.cancelled else record.acquired).get? source = some epoch then
    .respond accepted
  else if record.phase ≠ (if cancelled then .cancelling else .fencing) then
    .respond (reject "acknowledgement belongs to an obsolete phase")
  else if cancelled then .save { record with cancelled := record.cancelled.insert source epoch }
  else .save { record with acquired := record.acquired.insert source epoch }

def prepareAck (destination : Bytes) : Outcome RecordV3 :=
  if destination ∉ record.plan.migration.destinations then
    .respond (reject "unknown destination acknowledgement")
  else if record.prepared.contains destination then .respond accepted
  else if record.phase ≠ .preparing then
    .respond (reject "destination prepare acknowledgement belongs to an obsolete phase")
  else .save { record with prepared := record.prepared.insert destination () }

def copyCheckpoint (source : Bytes) (checkpoint : CheckpointV3) : Outcome RecordV3 :=
  if source ∉ record.plan.migration.sources ∨ maxCheckpointCursor < checkpoint.cursor.length then
    .respond (reject "invalid copy checkpoint")
  else if record.checkpoints.get? source = some checkpoint then .respond accepted
  else if record.phase ≠ .copying then
    .respond (reject "copy checkpoint belongs to an obsolete phase")
  else .save { record with checkpoints := record.checkpoints.insert source checkpoint }

def validationReport (report : ValidationV3) : Outcome RecordV3 :=
  if ¬ report.Consistent then .respond (reject "inconsistent validation report")
  else if record.validation = some report then .respond accepted
  else if record.phase ≠ .validating then
    .respond (reject "validation report belongs to an obsolete phase")
  else if report.isMatch then .save { record with validation := some report }
  else .save { record with validation := some report, phase := .cancelling }

def publish : Outcome RecordV3 :=
  if record.past .validating then .respond accepted
  else if record.phase ≠ .validating then
    .respond (reject "cannot publish outside the validating phase")
  else if !record.validation.any (·.isMatch) then
    .respond (reject "publication requires a matching validation report")
  else if !record.plan.cutoverRoutingMatches store then
    .respond (reject "routing changed before publication")
  else .save { record with phase := .publishing }

def completeAck (source : Bytes) : Outcome RecordV3 :=
  if source ∉ record.plan.migration.sources then
    .respond (reject "unknown cutover acknowledgement")
  else if record.completed.contains source then .respond accepted
  else if record.phase ≠ .completing then
    .respond (reject "cutover acknowledgement belongs to an obsolete phase")
  else .save { record with completed := record.completed.insert source () }

def cleanupAck (destination : Bytes) : Outcome RecordV3 :=
  if destination ∉ record.plan.migration.destinations then
    .respond (reject "unknown destination cleanup acknowledgement")
  else if record.cleaned.contains destination then .respond accepted
  else if record.phase ≠ .cancelling then
    .respond (reject "destination cleanup acknowledgement belongs to an obsolete phase")
  else .save { record with cleaned := record.cleaned.insert destination () }

def finishCancel : Outcome RecordV3 :=
  if record.phase = .cancelled then .respond accepted
  else if record.phase ≠ .cancelling then
    .respond (reject "cancellation finish belongs to an obsolete phase")
  else if record.cancelled.size ≠ record.plan.migration.sources.length then
    .respond (reject "not every source acknowledged cancellation")
  else if !placementsMatch record.plan.expectedPlacements store then
    .respond (reject "cancellation has not restored the pre-operation placements")
  else if ¬ record.CleanedUp then .respond (reject "prepared destinations are not cleaned up")
  else .save { record with phase := .cancelled }

/-- The end of a phase of the successful path, which the record is in. -/
def finishPhase (phase : PhaseV3) (protectedReadTs : Option UInt64) : Outcome RecordV3 :=
  match phase with
  | .fencing =>
    if record.acquired.size ≠ record.plan.migration.sources.length then
      .respond (reject "not every participant acknowledged fencing")
    else if !record.plan.routingMatches store then
      .respond (reject "routing changed before fence completion")
    else .save { record with phase := .fenced }
  | .fenced => .save { record with phase := .preparing }
  | .preparing =>
    if record.prepared.size ≠ record.plan.migration.destinations.length then
      .respond (reject "not every destination acknowledged preparation")
    else
      match protectedReadTs.filter (0 < ·) with
      | none => .respond (reject "copy requires a protected read timestamp")
      | some ts => .save { record with protectedReadTs := ts, phase := .copying }
  | .copying =>
    if ¬ record.CopyComplete then .respond (reject "copy is not complete for every source")
    else .save { record with phase := .validating }
  | .publishing =>
    if !record.plan.published store then .respond (reject "routing publication has not committed")
    else .save { record with phase := .completing }
  | .completing =>
    if record.completed.size ≠ record.plan.migration.sources.length then
      .respond (reject "not every participant acknowledged cutover")
    else .save { record with phase := .done }
  | _ => .respond (reject "phase has no finish transition")

def finish (phase : PhaseV3) (protectedReadTs : Option UInt64) : Outcome RecordV3 :=
  if phase = .cancelling then record.finishCancel store
  else
    match phase.ordinal with
    | none => .respond (reject "invalid finish phase")
    | some target =>
      if protectedReadTs.isSome ∧ phase ≠ .preparing then
        .respond (reject "protected read timestamp only accompanies the copy start")
      else if record.phase.ordinal.any (target < ·) then .respond accepted
      else if record.phase ≠ phase then .respond (reject "finish belongs to an obsolete phase")
      else record.finishPhase store phase protectedReadTs

def step : StepV3 → Outcome RecordV3
  | .begin => record.begin store
  | .requestCancel => record.requestCancel
  | .ack source epoch cancelled => record.ack source epoch cancelled
  | .prepareAck destination => record.prepareAck destination
  | .copyCheckpoint source checkpoint => record.copyCheckpoint source checkpoint
  | .validationReport report => record.validationReport report
  | .publish => record.publish store
  | .completeAck source => record.completeAck source
  | .cleanupAck destination => record.cleanupAck destination
  | .finish phase protectedReadTs => record.finish store phase protectedReadTs

end RecordV3

section Plan

variable [Serde]

/-- Plan a migration of a table without an active one. -/
def planFreshV3 (kv : Kv) (store : MemMetaStore) (plan : PlanV3) : Result (Outcome RecordV3) := do
  let v1 ← readRecord kv plan.migration.tableId
  if v1.isSome then
    pure (.respond (reject "V1 journal requires explicit reconciliation before V3 planning"))
  else
    let v2 ← readRecordV2 kv plan.migration.tableId
    if v2.any fun r => r.phase ≠ .cancelled then
      pure (.respond (reject "V2 journal requires completion or cancellation before V3 planning"))
    else if !plan.routingMatches store then
      pure (.respond (reject "source routing no longer matches the plan"))
    else if ← coverageMatches plan.migration plan.expectedMap store then
      if (← Backup.listJobs kv).any fun job => job.phase = .exporting then
        pure (.respond (reject "a cluster backup is exporting; migration waits"))
      else if plan.migration.sourceEpochs.get? shardMeta ≠ some (epochOf (← readFence kv)) then
        pure (.respond (reject "stale meta fence epoch in plan; re-plan against current state"))
      else
        pure (.save ⟨plan, .planned, .empty, .empty, .empty, .empty, none, .empty, .empty, 0⟩)
    else pure (.respond (reject "plan does not cover every row/index source group"))

def planV3 (kv : Kv) (store : MemMetaStore) (plan : PlanV3) (current : Option RecordV3) :
    Result (Outcome RecordV3) :=
  if maxPlanBytes < plan.json.length ∨ ¬ ValidPlan plan.migration ∨ ¬ ValidDestinations plan then
    pure (.respond (reject "invalid or oversized migration plan"))
  else
    match current with
    | none => planFreshV3 kv store plan
    | some record =>
      if record.plan.migration.operationId = plan.migration.operationId then
        pure (.respond (if record.plan = plan then accepted
          else reject "operation ID reused with a different plan"))
      else if record.active then
        pure (.respond (reject "table already has an active migration"))
      else planFreshV3 kv store plan

end Plan

/-- What a command on the journal of a table decides. -/
def outcomeV3 (kv : Kv) (store : MemMetaStore) (table : TableId) (operation : Uuid) (step : StepV3) :
    Result (Outcome RecordV3) := do
  match ← readRecordV3 kv table with
  | none => pure (.respond (reject "migration journal is absent"))
  | some record =>
    if record.plan.migration.operationId ≠ operation then
      pure (.respond (reject "stale coordinator operation"))
    else pure (record.step store step)

/-- Apply a command; only the meta group has a metadata store. -/
def applyV3 [Hashes] [Serde] (kv : Kv) (cmd : CommandV3) (index : UInt64)
    (store : Option MemMetaStore) : Result (Kv × ShardResponse) :=
  match cmd, store with
  | .cancelParticipant operation expectedEpoch, store =>
    applyCancelParticipant kv operation expectedEpoch index store.isSome
  | _, none => pure (kv, reject "coordinator journal belongs to the meta group")
  | .plan plan, some store =>
    journal kv (journalKeyV3 plan.migration.tableId) index fun kv => do
      (planV3 kv store plan (← readRecordV3 kv plan.migration.tableId)).map (.map .migrationV3)
  | .step table operation step, some store =>
    journal kv (journalKeyV3 table) index fun kv =>
      (outcomeV3 kv store table operation step).map (.map .migrationV3)

/-! ## Conditional routing -/

def conditionalReject (reason : String) : ShardResponse :=
  Raft.reject ("conditional routing publication rejected: " ++ reason)

/-- The record of the operation, unless another operation has closed the meta
group; or the rejection. -/
def conditionalJournal (kv : Kv) (table : TableId) (operation : Uuid) :
    Result (Except ShardResponse RecordV3) := do
  match ← readRecordV3 kv table with
  | none => pure (.error (conditionalReject "no V3 journal owns this publication"))
  | some record =>
    let fence ← readFence kv
    if fence.any fun f => f.closed ∧ f.operationId ≠ operation then
      pure (.error (conditionalReject "meta participant is fenced by another operation"))
    else if record.plan.migration.operationId ≠ operation then
      pure (.error (conditionalReject "stale operation"))
    else pure (.ok record)

/-- Publish the map of the plan, if the table has the map the plan expects. -/
def publishMap (record : RecordV3) (store : MemMetaStore) (table : TableId)
    (expected : Option ShardMap) (map : ShardMap) : MemMetaStore × ShardResponse :=
  if canonical record.plan.destinationMap ≠ canonical (some map) ∨
      canonical record.plan.expectedMap ≠ canonical expected then
    (store, conditionalReject "publication payload does not match the journaled plan")
  else if record.past .validating ∧ mapMatches (some map) store table then (store, accepted)
  else if record.phase ≠ .publishing ∨ !mapMatches expected store table then
    (store, conditionalReject "current routing does not match the expected content")
  else (store.updateShardMap map, accepted)

def applyConditionalMap (kv : Kv) (table : TableId) (operation : Uuid) (phase : PhaseV3)
    (expected : Option ShardMap) (map : ShardMap) (store : Option MemMetaStore) :
    Result (Option MemMetaStore × ShardResponse) :=
  match store with
  | none => pure (none, conditionalReject "conditional routing belongs to the meta group")
  | some store =>
    if map.tableId ≠ table ∨ phase ≠ .publishing then
      pure (some store,
        conditionalReject "shard map does not match the journal table or phase token")
    else do
      match ← conditionalJournal kv table operation with
      | .error rejection => pure (some store, rejection)
      | .ok record =>
        let (store, response) := publishMap record store table expected map
        pure (some store, response)

/-- The placements a step starts from and those it leaves. -/
def PlanV3.placementStep (plan : PlanV3) : PhaseV3 → Option (Placements × Placements)
  | .preparing => some (plan.expectedPlacements, plan.preparePlacements)
  | .publishing => some (plan.preparePlacements, plan.destinationPlacements)
  | .cancelling => some (plan.preparePlacements, plan.expectedPlacements)
  | _ => none

def publishPlacements (record : RecordV3) (store : MemMetaStore) (phase : PhaseV3)
    (expected placements : Placements) : MemMetaStore × ShardResponse :=
  match record.plan.placementStep phase with
  | none => (store, conditionalReject "stale journal phase token")
  | some (expectedContent, payloadContent) =>
    if canonicalPlacements payloadContent ≠ canonicalPlacements placements ∨
        canonicalPlacements expectedContent ≠ canonicalPlacements expected then
      (store, conditionalReject "publication payload does not match the journaled plan")
    else if placementsMatch placements store then (store, accepted)
    else if record.phase ≠ phase ∨ !placementsMatch expected store then
      (store, conditionalReject "current routing does not match the expected content")
    else (store.updateShardPlacements placements, accepted)

def applyConditionalPlacements (kv : Kv) (table : TableId) (operation : Uuid) (phase : PhaseV3)
    (expected placements : Placements) (store : Option MemMetaStore) :
    Result (Option MemMetaStore × ShardResponse) :=
  match store with
  | none => pure (none, conditionalReject "conditional routing belongs to the meta group")
  | some store => do
    match ← conditionalJournal kv table operation with
    | .error rejection => pure (some store, rejection)
    | .ok record =>
      let (store, response) := publishPlacements record store phase expected placements
      pure (some store, response)

end NodusDb.Raft.Migration
