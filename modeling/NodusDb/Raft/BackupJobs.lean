import NodusDb.Raft.JournalV3

/-!
# Backup jobs

The meta group journals cluster backups. A job exports until it completes,
fails or is cancelled; a new one is planned only when no other job exports and
no migration is active. The oldest ended jobs are evicted.
-/

namespace NodusDb.Raft.Backup

inductive CommandV1
  | plan (job : JobV1)
  | heartbeat (job : Uuid) (atMs : UInt64)
  | complete (job : Uuid)
  | fail (job : Uuid) (reason : Bytes)
  | cancel (job : Uuid)
  deriving DecidableEq, Repr

def maxTerminalJobs : Nat := 64

/-- A response, and the job as it is saved if it changes. -/
abbrev Transition := Option JobV1 × ShardResponse

def JobV1.heartbeat (job : JobV1) (atMs : UInt64) : Transition :=
  if job.phase ≠ .exporting then (none, accepted)
  else if job.updatedAtMs < atMs then (some { job with updatedAtMs := atMs }, accepted)
  else (none, accepted)

def JobV1.complete (job : JobV1) : Transition :=
  match job.phase with
  | .completed => (none, accepted)
  | .exporting => (some { job with phase := .completed }, accepted)
  | .failed | .cancelled => (none, reject "a terminated backup job cannot complete")

def JobV1.fail (job : JobV1) (reason : Bytes) : Transition :=
  match job.phase with
  | .failed | .cancelled => (none, accepted)
  | .completed => (none, reject "a completed backup job cannot fail")
  | .exporting => (some { job with phase := .failed, error := some reason }, accepted)

def JobV1.cancel (job : JobV1) : Transition :=
  match job.phase with
  | .cancelled => (none, accepted)
  | .exporting => (some { job with phase := .cancelled }, accepted)
  | .completed | .failed => (none, reject "a terminated backup job cannot be cancelled")

section Apply

variable [Hashes] [Serde]

def save (kv : Kv) (job : JobV1) (index : UInt64) : Result Kv :=
  saveRecord kv (key job.jobId) (.job job) index

def evict (index : UInt64) (kv : Kv) (job : JobV1) : Result Kv := do
  let txn := Hashes.newV5 (ascii "backup-evict" ++ job.jobId.asBytes)
  let kv ← putIntent (kv.abort txn) txn (.delete (key job.jobId))
  pure (kv.commit txn index.toNat)

/-- The ended jobs beyond those that are kept, the oldest first. -/
def evicted (jobs : List JobV1) : List JobV1 :=
  let terminal := jobs.filter fun job => job.phase ≠ .exporting
  (terminal.insertionSort fun a b => a.updatedAtMs ≤ b.updatedAtMs).take
    (terminal.length - maxTerminalJobs)

def plan (kv : Kv) (job : JobV1) (index : UInt64) : Result (Kv × ShardResponse) := do
  validate job
  ensure (job.phase = .exporting) "a planned job starts exporting"
  match ← readJob kv job.jobId with
  | some existing =>
    pure (kv, if existing = job then accepted
      else reject "backup job id reused with different content")
  | none =>
    if (← listJobs kv).any fun job => job.phase = .exporting then
      pure (kv, reject "another backup job is in flight")
    else if (← Migration.activeJournalTable kv).isSome then
      pure (kv, reject "a migration is in flight; backup waits")
    else
      let kv ← save kv job index
      let kv ← (evicted (← listJobs kv)).foldlM (evict index) kv
      pure (kv, accepted)

def update (kv : Kv) (job : Uuid) (index : UInt64) (transition : JobV1 → Transition) :
    Result (Kv × ShardResponse) := do
  match ← readJob kv job with
  | none => pure (kv, reject "backup journal is absent")
  | some record =>
    match transition record with
    | (none, response) => pure (kv, response)
    | (some record, response) => do
      let kv ← save kv record index
      pure (kv, response)

def apply (kv : Kv) (cmd : CommandV1) (index : UInt64) : Result (Kv × ShardResponse) :=
  match cmd with
  | .plan job => plan kv job index
  | .heartbeat job atMs => update kv job index (·.heartbeat atMs)
  | .complete job => update kv job index (·.complete)
  | .fail job reason => do
    ensure (reason.length ≤ maxReason) "failure reason too long"
    update kv job index (·.fail reason)
  | .cancel job => update kv job index (·.cancel)

end Apply

end NodusDb.Raft.Backup
