import NodusDb.Raft.Control
import NodusDb.Raft.Routing

/-!
# Reading the journals

Every journal record is checked when it is read, so a record that a command
saves has to pass the checks of the next one.
-/

namespace NodusDb

namespace Uuid

def hexValue (c : UInt8) : Nat := if c < 58 then c.toNat - 48 else c.toNat - 87

/-- Read the hyphenated text of an id, `parse_str`. -/
def parse (text : Bytes) : Option Uuid :=
  let u : Uuid := Fin.ofNat (2 ^ 128) (undigits hexValue 16 (text.filter (· != 45)))
  if u.toText = text then some u else none

theorem parse_toText (u : Uuid) : parse u.toText = some u := by
  have hhex : ∀ d < 16, hexValue (hexDigit d) = d := by decide
  have hlt : u.toNat % 16 ^ 32 = u.toNat := Nat.mod_eq_of_lt (lt_of_lt_of_eq u.isLt (by norm_num))
  have hof : (Fin.ofNat (2 ^ 128) u.toNat : Uuid) = u := Fin.ofNat_val_eq_self u
  simp only [parse, filter_toText, undigits_digits hhex (by decide), hlt, hof, if_true]

end Uuid

/-- The part of the decoder that user data can reach: backup records are not
under a reserved key. -/
class Serde where
  parseJob : Bytes → Option Raft.Backup.JobV1

namespace Raft

namespace Migration

/-! ## Plans -/

def ValidGroups (groups : List Bytes) : Prop :=
  groups ≠ [] ∧ groups.length ≤ 128 ∧ (∀ s ∈ groups, s ≠ [] ∧ s.length ≤ 128) ∧ groups.Nodup

instance (groups : List Bytes) : Decidable (ValidGroups groups) :=
  inferInstanceAs (Decidable (_ ∧ _))

def ValidPlan (plan : MigrationPlan) : Prop :=
  ValidGroups plan.sources ∧ ValidGroups plan.destinations ∧
    (∀ s ∈ plan.sources, s ∉ plan.destinations) ∧
    plan.sourceEpochs.size = plan.sources.length ∧
    (∀ s ∈ plan.sources, plan.sourceEpochs.contains s) ∧
    ∀ epoch ∈ plan.sourceEpochs.values, epoch.toNat ≠ u64Max

instance (plan : MigrationPlan) : Decidable (ValidPlan plan) := inferInstanceAs (Decidable (_ ∧ _))

def MigrationPlan.nextEpoch (plan : MigrationPlan) (source : Bytes) : Option UInt64 :=
  (plan.sourceEpochs.get? source).bind checkedSucc

/-- Every acknowledgement is of a source, with its next epoch. -/
def MigrationPlan.ValidAcks (plan : MigrationPlan) (acks : OrdMap Bytes UInt64) : Prop :=
  ∀ e ∈ acks.entries, plan.nextEpoch e.1 = some e.2

instance (plan : MigrationPlan) (acks : OrdMap Bytes UInt64) : Decidable (plan.ValidAcks acks) :=
  inferInstanceAs (Decidable (∀ e ∈ _, _))

def destinationGroup (shard : ShardId) : Bytes := ascii "shard-" ++ shard.toText

def maxPlacements : Nat := 4096

/-- The destinations of a plan are the groups of the map it publishes. A plan
that publishes no map has no groups to compare with. -/
def DestinationsMatch (plan : PlanV3) : Option ShardMap → Prop
  | none => True
  | some map =>
    map.tableId = plan.migration.tableId ∧ (map.shards.map (·.id)).Nodup ∧
      ((∀ g ∈ map.shards.map fun s => destinationGroup s.id, g ∈ plan.migration.destinations) ∧
        ∀ g ∈ plan.migration.destinations, g ∈ map.shards.map fun s => destinationGroup s.id) ∧
      ∀ s ∈ map.shards, plan.destinationPlacements.contains s.id

instance (plan : PlanV3) : (map : Option ShardMap) → Decidable (DestinationsMatch plan map)
  | none => isTrue trivial
  | some _ => inferInstanceAs (Decidable (_ ∧ _))

def ValidDestinations (plan : PlanV3) : Prop :=
  (plan.expectedPlacements.size ≤ maxPlacements ∧
    plan.destinationPlacements.size ≤ maxPlacements) ∧
    DestinationsMatch plan plan.destinationMap

instance (plan : PlanV3) : Decidable (ValidDestinations plan) :=
  inferInstanceAs (Decidable (_ ∧ _))

/-! ## The first journal -/

def readRecord (kv : Kv) (table : TableId) : Result (Option MigrationRecord) :=
  match lookup kv (journalKey table) with
  | none => .ok none
  | some (.migration record) => .ok (some record)
  | some _ => .error "unsupported or corrupt migration record envelope"

/-! ## The second journal -/

def decodeV2 : Value → Result RecordV2
  | .migrationV2 record => do
    let plan := record.plan.migration
    ensure (ValidPlan plan) "invalid coordinator plan"
    ensure (plan.ValidAcks record.acquired) "invalid coordinator acknowledgement"
    ensure (plan.ValidAcks record.cancelled) "invalid coordinator acknowledgement"
    ensure (record.phase ≠ .fenced ∨ record.acquired.size = plan.sources.length)
      "incomplete fenced journal"
    ensure (record.phase ≠ .cancelled ∨ record.cancelled.size = plan.sources.length)
      "incomplete cancelled journal"
    pure record
  | _ => .error "unsupported coordinator record envelope"

def readRecordV2 (kv : Kv) (table : TableId) : Result (Option RecordV2) :=
  match lookup kv (journalKeyV2 table) with
  | none => .ok none
  | some value => do
    let record ← decodeV2 value
    ensure (record.plan.migration.tableId = table) "coordinator key does not match table"
    pure (some record)

/-! ## The third journal -/

def maxCheckpointCursor : Nat := 1024

/-- Acknowledgements name groups of the plan. -/
def InPlan {α : Type} (groups : OrdMap Bytes α) (all : List Bytes) : Prop :=
  groups.size ≤ all.length ∧ ∀ g ∈ groups.keys, g ∈ all

instance {α : Type} (groups : OrdMap Bytes α) (all : List Bytes) : Decidable (InPlan groups all) :=
  inferInstanceAs (Decidable (_ ∧ _))

def ValidationV3.Consistent (report : ValidationV3) : Prop :=
  report.isMatch = decide (report.sourceDigest = report.destinationDigest)

instance (report : ValidationV3) : Decidable report.Consistent := inferInstanceAs (Decidable (_ = _))

/-- Whether the copy of every source is complete. -/
def RecordV3.CopyComplete (record : RecordV3) : Prop :=
  ∀ s ∈ record.plan.migration.sources, (record.checkpoints.get? s).any (·.complete)

instance (record : RecordV3) : Decidable record.CopyComplete :=
  inferInstanceAs (Decidable (∀ s ∈ _, _))

/-- Whether every prepared destination was removed again. -/
def RecordV3.CleanedUp (record : RecordV3) : Prop :=
  ∀ d ∈ record.prepared.keys, record.cleaned.contains d

instance (record : RecordV3) : Decidable record.CleanedUp :=
  inferInstanceAs (Decidable (∀ d ∈ _, _))

/-- The phase is on the successful path, at or after the one with the ordinal. -/
def PhaseV3.reached (phase : PhaseV3) (ordinal : Nat) : Bool := phase.ordinal.any (ordinal ≤ ·)

/-- What a phase has proved about the ones before it. -/
def RecordV3.validatePhase (record : RecordV3) : Result Unit := do
  let plan := record.plan.migration
  ensure (record.phase.reached 2 → record.acquired.size = plan.sources.length)
    "V3 journal past fencing without every source acquired"
  ensure (record.phase.reached 4 → record.prepared.size = plan.destinations.length)
    "V3 copy phase without every destination prepared"
  ensure (record.phase.reached 4 → 0 < record.protectedReadTs)
    "V3 copy phase without a protected read timestamp"
  ensure (record.phase.reached 5 → record.CopyComplete)
    "V3 validation phase with an incomplete copy"
  ensure (record.phase.reached 6 → record.validation.any (·.isMatch))
    "V3 publication without a matching validation report"
  ensure (record.phase = .done → record.completed.size = plan.sources.length)
    "V3 completion without every cutover acknowledgement"
  ensure (record.phase = .cancelled → record.cancelled.size = plan.sources.length)
    "V3 cancellation without every source sealed"
  ensure (record.phase = .cancelled → record.CleanedUp)
    "V3 cancellation without destination cleanup"

def RecordV3.validate (record : RecordV3) : Result Unit := do
  let plan := record.plan.migration
  ensure (ValidPlan plan ∧ ValidDestinations record.plan) "invalid V3 coordinator plan"
  ensure (plan.ValidAcks record.acquired) "invalid V3 coordinator acknowledgement"
  ensure (plan.ValidAcks record.cancelled) "invalid V3 coordinator acknowledgement"
  ensure (InPlan record.prepared plan.destinations ∧ InPlan record.cleaned plan.destinations)
    "invalid V3 destination acknowledgement"
  ensure (InPlan record.checkpoints plan.sources ∧
      ∀ c ∈ record.checkpoints.values, c.cursor.length ≤ maxCheckpointCursor)
    "invalid V3 copy checkpoint"
  ensure (InPlan record.completed plan.sources) "invalid V3 cutover acknowledgement"
  ensure (∀ report ∈ record.validation, report.Consistent) "inconsistent V3 validation report"
  record.validatePhase

def decodeV3 : Value → Result RecordV3
  | .migrationV3 record => do
    record.validate
    pure record
  | _ => .error "unsupported V3 coordinator record envelope"

def readRecordV3 (kv : Kv) (table : TableId) : Result (Option RecordV3) :=
  match lookup kv (journalKeyV3 table) with
  | none => .ok none
  | some value => do
    let record ← decodeV3 value
    ensure (record.plan.migration.tableId = table) "V3 coordinator key does not match table"
    pure (some record)

/-! ## Active journals -/

def rows (kv : Kv) (start stop : Bytes) : Result (List (KvPair Value)) :=
  match kv.scan start stop u64Max with
  | .ok rows => .ok rows
  | .error _ => .error "inverted range"

/-- The table of a second journal that may still change. -/
def activeV2 (row : KvPair Value) : Result (Option TableId) := do
  let record ← decodeV2 row.value
  pure (if record.phase = .fenced ∨ record.phase = .cancelled then none
    else some record.plan.migration.tableId)

def activeV3 (row : KvPair Value) : Result (Option TableId) := do
  let record ← decodeV3 row.value
  pure (if record.phase = .done ∨ record.phase = .cancelled then none
    else some record.plan.migration.tableId)

/-- The first table that one of the rows has, as the loops of
`active_journal_table` return it. -/
def firstActive (active : KvPair Value → Result (Option TableId)) :
    List (KvPair Value) → Result (Option TableId)
  | [] => .ok none
  | row :: rows => do
    match ← active row with
    | some table => pure (some table)
    | none => firstActive active rows

def activeJournalTable (kv : Kv) : Result (Option TableId) := do
  match ← rows kv journalPrefix journalEnd with
  | row :: _ =>
    let table ← required (Uuid.parse (row.key.drop journalPrefix.length)) "invalid table id"
    pure (some table)
  | [] =>
    match ← firstActive activeV2 (← rows kv journalPrefixV2 journalEndV2) with
    | some table => pure (some table)
    | none => firstActive activeV3 (← rows kv journalPrefixV3 journalEndV3)

end Migration

namespace Backup

def maxBackupId : Nat := 128
def maxClusterId : Nat := 128
def maxReason : Nat := 512

def validate (job : JobV1) : Result Unit := do
  ensure (!job.jobId.isNil) "backup job id is nil"
  ensure (job.backupId ≠ [] ∧ job.backupId.length ≤ maxBackupId ∧
      job.clusterId.length ≤ maxClusterId ∧ (job.error.map List.length).getD 0 ≤ maxReason)
    "backup journal field out of bounds"
  ensure (job.phase ≠ .exporting ∨ job.error = none) "an exporting job carries no error"
  ensure (job.protectedTs.all fun ts => job.backupTs = 0 ∨ ts ≤ job.backupTs)
    "protected timestamp beyond the backup timestamp"

variable [Serde]

def decode (value : Value) : Result JobV1 := do
  let job ← match value with
    | .job job => pure job
    | .data bytes => required (Serde.parseJob bytes) "backup journal requires a versioned envelope"
    | _ => .error "unsupported backup journal version"
  validate job
  pure job

def readJob (kv : Kv) (job : Uuid) : Result (Option JobV1) :=
  match lookup kv (key job) with
  | none => .ok none
  | some value => (decode value).map some

/-- Every job, those with the oldest heartbeat first. -/
def listJobs (kv : Kv) : Result (List JobV1) := do
  let rows ← Migration.rows kv journalPrefix journalEnd
  let jobs ← rows.mapM fun row => decode row.value
  pure (jobs.insertionSort fun a b => a.updatedAtMs ≤ b.updatedAtMs)

end Backup

end Raft

end NodusDb
