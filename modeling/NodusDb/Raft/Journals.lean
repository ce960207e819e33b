import NodusDb.Storage.Api

/-!
# Journal records

The shard map of a table and the records of the operations that a cluster
journals: migrations, in the three versions of their journal, and backup jobs.
A `BTreeMap` or a `HashMap` is an `OrdMap`, a `BTreeSet` an `OrdMap` to `Unit`.
-/

namespace NodusDb

abbrev TableId := Uuid

abbrev ShardId := Uuid

/-! ## Shard maps -/

inductive DescriptorState
  | pub
  | adding
  | dropping
  | dropped
  deriving DecidableEq, Repr

/-- A range of keys of a table. The two dates are the texts they are stored as. -/
structure ShardDescriptor where
  id : ShardId
  name : Bytes
  version : UInt64
  createdAt : Bytes
  updatedAt : Bytes
  state : DescriptorState
  tableId : TableId
  startKey : Bytes
  /-- Empty for the last range. -/
  endKey : Bytes
  deriving DecidableEq, Repr

structure ShardMap where
  tableId : TableId
  shards : List ShardDescriptor
  deriving DecidableEq, Repr

abbrev Placements := OrdMap ShardId Bytes

namespace Raft

namespace Migration

/-! ## The first journal and the fence -/

inductive MigrationPhase
  | planned
  | fencing
  | cancelRequested
  deriving DecidableEq, Repr

structure MigrationPlan where
  operationId : Uuid
  tableId : TableId
  sourceEpochs : OrdMap Bytes UInt64
  sources : List Bytes
  destinations : List Bytes
  deriving DecidableEq

structure MigrationRecord where
  plan : MigrationPlan
  phase : MigrationPhase
  deriving DecidableEq

/-- Which epoch the group is in, and whether it is closed to writes. -/
structure ParticipantFence where
  operationId : Uuid
  epoch : UInt64
  closed : Bool
  deriving DecidableEq, Repr

/-! ## The second journal -/

structure PlanV2 where
  migration : MigrationPlan
  expectedMap : Option ShardMap
  deriving DecidableEq

inductive PhaseV2
  | planned
  | fencing
  | fenced
  | cancelling
  | cancelled
  deriving DecidableEq, Repr

/-- Sources acknowledge with the epoch they advanced to. -/
structure RecordV2 where
  plan : PlanV2
  phase : PhaseV2
  acquired : OrdMap Bytes UInt64
  cancelled : OrdMap Bytes UInt64
  deriving DecidableEq

/-! ## The third journal -/

structure PlanV3 where
  migration : MigrationPlan
  expectedMap : Option ShardMap
  expectedPlacements : Placements
  destinationMap : Option ShardMap
  destinationPlacements : Placements
  deriving DecidableEq

inductive PhaseV3
  | planned
  | fencing
  | fenced
  | preparing
  | copying
  | validating
  | publishing
  | completing
  | done
  | cancelling
  | cancelled
  deriving DecidableEq, Repr

/-- The order of the successful path; cancellation is off it. -/
def PhaseV3.ordinal : PhaseV3 → Option Nat
  | planned => some 0
  | fencing => some 1
  | fenced => some 2
  | preparing => some 3
  | copying => some 4
  | validating => some 5
  | publishing => some 6
  | completing => some 7
  | done => some 8
  | cancelling | cancelled => none

structure CheckpointV3 where
  cursor : Bytes
  complete : Bool
  deriving DecidableEq, Repr

structure ValidationV3 where
  isMatch : Bool
  sourceDigest : UInt64
  destinationDigest : UInt64
  deriving DecidableEq, Repr

structure RecordV3 where
  plan : PlanV3
  phase : PhaseV3
  acquired : OrdMap Bytes UInt64
  cancelled : OrdMap Bytes UInt64
  /-- Destinations that serve. -/
  prepared : OrdMap Bytes Unit
  checkpoints : OrdMap Bytes CheckpointV3
  validation : Option ValidationV3
  /-- Sources that have cut over. -/
  completed : OrdMap Bytes Unit
  /-- Destinations that a cancellation has removed. -/
  cleaned : OrdMap Bytes Unit
  protectedReadTs : UInt64
  deriving DecidableEq

end Migration

namespace Backup

inductive PhaseV1
  | exporting
  | completed
  | failed
  | cancelled
  deriving DecidableEq, Repr

inductive KindV1
  | full
  | incremental (parent : Bytes)
  deriving DecidableEq, Repr

structure JobV1 where
  jobId : Uuid
  backupId : Bytes
  creator : UInt64
  clusterId : Bytes
  kind : KindV1
  backupTs : UInt64
  protectedTs : Option UInt64
  updatedAtMs : UInt64
  phase : PhaseV1
  error : Option Bytes
  deriving DecidableEq, Repr

end Backup

end Raft

end NodusDb
