import NodusDb.Raft.Records

/-!
# The backup repository

A repository maps keys to objects. A backup is a manifest and the objects it lists; an incremental
one also needs its parent. `restore` is given fuel, since nothing keeps ancestors from forming a
cycle. The last section says what may be reclaimed while backups are kept.
-/

namespace NodusDb

/-! ## Manifests -/

inductive BackupType
  | full
  | incremental
  deriving DecidableEq

inductive BackupStatus
  | pending
  | choosingTimestamp
  | exportingCatalog
  | exportingTxnRecords
  | exportingShards
  | uploading
  | writingManifest
  | verifying
  | completed
  | failed
  | cancelled
  deriving DecidableEq

structure ProtectedTimestamp where
  id : Bytes
  lowerBoundTs : Nat
  upperBoundTs : Nat
  deriving DecidableEq

structure BackupManifest where
  manifestVersion : Nat
  objectFormatVersion : Nat
  backupId : Bytes
  clusterId : Bytes
  timelineId : Bytes
  backupType : BackupType
  parentBackupId : Option Bytes
  snapshotTs : Nat
  files : List Bytes
  checksums : OrdMap Bytes Digest
  protectedTimestamp : Option ProtectedTimestamp
  status : BackupStatus
  deriving DecidableEq

structure RecoveryGeneration where
  id : Uuid
  /-- The first log segment of the generation. -/
  walFloor : Nat
  deriving DecidableEq

structure WalCommittedTxn where
  txnId : Uuid
  commitTs : Nat
  deriving DecidableEq

structure WalArchiveIndex where
  indexVersion : Nat
  timelineId : Bytes
  segmentId : Bytes
  walObjectKey : Bytes
  indexObjectKey : Bytes
  size : Nat
  checksum : Digest
  firstCommitTs : Option Nat
  lastCommitTs : Option Nat
  recordTxnIds : List Uuid
  committedTxns : List WalCommittedTxn
  predecessor : Option Nat
  deriving DecidableEq

structure BackupObject where
  name : Bytes
  bytes : Bytes
  deriving DecidableEq

/-- The JSON texts of the records kept in a repository, and their parsers. -/
class BackupCodec where
  manifestText : BackupManifest → Bytes
  parseManifest : Bytes → Option BackupManifest
  /-- The version of a record comes with its generation. -/
  generationText : Nat × RecoveryGeneration → Bytes
  parseGeneration : Bytes → Option (Nat × RecoveryGeneration)
  indexText : WalArchiveIndex → Bytes
  parseIndex : Bytes → Option WalArchiveIndex

abbrev BackupRepository := OrdMap Bytes Bytes

def compatibleManifestVersion : Nat := 2
def currentManifestVersion : Nat := 3
def compatibleObjectFormatVersion : Nat := 1
def currentObjectFormatVersion : Nat := 3
def defaultTimelineId : Bytes := ascii "default"

def manifestFormat (clusterVersion : Nat) : Nat × Nat :=
  if 3 ≤ clusterVersion then (currentManifestVersion, currentObjectFormatVersion)
  else if 2 ≤ clusterVersion then (currentManifestVersion, 2)
  else (compatibleManifestVersion, compatibleObjectFormatVersion)

def manifestSuffix : Bytes := ascii "/manifest.json"
def pendingManifestKey (backupId : Bytes) : Bytes := backupId ++ ascii "/manifest.pending.json"
def manifestKey (backupId : Bytes) : Bytes := backupId ++ manifestSuffix
def dataPrefix (backupId : Bytes) : Bytes := backupId ++ ascii "/data/"
def dataKey (backupId name : Bytes) : Bytes := dataPrefix backupId ++ name
def walKey (filename : Bytes) : Bytes := ascii "wal_archive/" ++ filename
def walIndexKey (filename : Bytes) : Bytes :=
  ascii "wal_archive/" ++ filename ++ ascii ".index.json"

/-- The name of the object that says to which generation a backup belongs. -/
def generationObject : Bytes := ascii "recovery-generation.v1.json"
def repositoryGeneration : Bytes := ascii "recovery/current.v1.json"

/-- The bytes without an ending, if they have it. -/
def stripSuffix (ending key : Bytes) : Option Bytes :=
  if ending.isSuffixOf key then some (key.take (key.length - ending.length)) else none

/-- The bytes without a start, or all of them. -/
def stripStart (start key : Bytes) : Bytes :=
  if start.isPrefixOf key then key.drop start.length else key

namespace BackupRepository

variable (repo : BackupRepository)

def getObject (key : Bytes) : Result Bytes := required (repo.get? key) "Object not found"

def objectExists (key : Bytes) : Bool := (repo.get? key).isSome

def listObjects (start : Bytes) : List Bytes := repo.keys.filter start.isPrefixOf

def deleteObjects (keys : List Bytes) : BackupRepository := keys.foldl OrdMap.erase repo

end BackupRepository

namespace BackupOrchestrator

variable [BackupCodec] [Hashes] (repo : BackupRepository)

/-! ## Reading -/

def decodeGeneration (bytes : Bytes) : Result RecoveryGeneration := do
  let (version, generation) ← required (BackupCodec.parseGeneration bytes) "invalid JSON"
  ensure (version = 1) "unsupported backup recovery-generation version"
  pure generation

def objectGeneration (objects : List BackupObject) : Result (Option RecoveryGeneration) :=
  match objects.filter (·.name = generationObject) with
  | [] => pure none
  | [object] => do pure (some (← decodeGeneration object.bytes))
  | object :: _ => do
    let _ ← decodeGeneration object.bytes
    .error "duplicate backup recovery-generation object"

def loadManifest (backupId : Bytes) : Result BackupManifest := do
  let body ← repo.getObject (manifestKey backupId)
  let manifest ← required (BackupCodec.parseManifest body) "invalid JSON"
  ensure ((manifest.manifestVersion, manifest.objectFormatVersion) ∈
      [(compatibleManifestVersion, compatibleObjectFormatVersion), (currentManifestVersion, 2),
        (currentManifestVersion, currentObjectFormatVersion)])
    "unsupported backup manifest/object format versions"
  pure manifest

def verifyManifestFiles (manifest : BackupManifest) : Result Unit :=
  manifest.files.forM fun key => do
    let bytes ← repo.getObject key
    let expected ← required (manifest.checksums.get? key) "missing checksum"
    ensure (Hashes.sha256 bytes = expected) "checksum mismatch"

def manifestGeneration (manifest : BackupManifest) : Result (Option RecoveryGeneration) :=
  match manifest.files.filter (ascii "/" ++ generationObject).isSuffixOf with
  | [] => pure none
  | [key] => do
    let bytes ← repo.getObject key
    ensure (manifest.checksums.get? key = some (Hashes.sha256 bytes))
      "backup recovery-generation checksum mismatch"
    pure (some (← decodeGeneration bytes))
  | _ => .error "duplicate recovery-generation object in manifest"

def verify (backupId : Bytes) : Result Unit := do
  let manifest ← loadManifest repo backupId
  ensure (manifest.status = .completed) "backup is not COMPLETE"
  verifyManifestFiles repo manifest
  let _ ← manifestGeneration repo manifest
  pure ()

def validateChainGeneration (parent child : BackupManifest) : Result Unit := do
  let parentGeneration ← manifestGeneration repo parent
  let childGeneration ← manifestGeneration repo child
  ensure (parentGeneration = childGeneration) "backup chain crosses a storage checkpoint"

def restoreManifestObjects (manifest : BackupManifest) : Result (List BackupObject) :=
  manifest.files.mapM fun key => do
    let bytes ← repo.getObject key
    pure ⟨stripStart (dataPrefix manifest.backupId) key, bytes⟩

/-- What a manifest asks for, checked against its parent's manifest: the parent to
restore first, if there is one. -/
def checkChain (backupId : Bytes) : Result (BackupManifest × Option Bytes) := do
  verify repo backupId
  let manifest ← loadManifest repo backupId
  match manifest.backupType with
  | .full => pure (manifest, none)
  | .incremental =>
    let parent ← required manifest.parentBackupId "Incremental backup missing parent_backup_id"
    let parentManifest ← loadManifest repo parent
    validateChainGeneration repo parentManifest manifest
    pure (manifest, some parent)

/-- `restore`; there is no result without fuel. -/
def restore : Nat → Bytes → Option (Result (List BackupObject))
  | 0, _ => none
  | fuel + 1, backupId =>
    match checkChain repo backupId with
    | .error e => some (.error e)
    | .ok (manifest, none) => some (restoreManifestObjects repo manifest)
    | .ok (manifest, some parent) =>
      (restore fuel parent).map fun result => do
        let objects ← result
        let own ← restoreManifestObjects repo manifest
        pure (objects ++ own)

def Restores (backupId : Bytes) (objects : List BackupObject) : Prop :=
  ∃ fuel, restore repo fuel backupId = some (.ok objects)

/-! ## Scanning -/

def manifestFilesPresent (manifest : BackupManifest) : Bool :=
  manifest.files.all (BackupRepository.objectExists repo)

/-- The complete manifests of a repository, and the ids of those that cannot be
read or miss objects. -/
structure ManifestScan where
  completed : List BackupManifest
  unreadable : List Bytes

def scanKey (scan : ManifestScan) (key : Bytes) : ManifestScan :=
  match stripSuffix manifestSuffix key with
  | none => scan
  | some backupId =>
    match loadManifest repo backupId with
    | .ok manifest =>
      if manifest.status ≠ .completed then scan
      else if manifestFilesPresent repo manifest then
        { scan with completed := scan.completed ++ [manifest] }
      else { scan with unreadable := scan.unreadable ++ [manifest.backupId] }
    | .error _ => { scan with unreadable := scan.unreadable ++ [backupId] }

def scanManifests : ManifestScan := (repo.listObjects []).foldl (scanKey repo) ⟨[], []⟩

/-! ## Deleting -/

def checkDelete (backupId : Bytes) : Result Unit := do
  let scan := scanManifests repo
  ensure (scan.unreadable = [])
    "cannot delete backup; unreadable manifest(s) may still depend on it"
  ensure (∀ manifest ∈ scan.completed, manifest.parentBackupId ≠ some backupId)
    "cannot delete backup; a retained backup depends on it"

def objectsOf (backupId : Bytes) : List Bytes := repo.listObjects (backupId ++ ascii "/")

/-- A deletion, which may stop after some of the objects. -/
def deleteBackup (backupId : Bytes) (stopped : Option (List Bytes)) :
    BackupRepository × Result Unit :=
  match checkDelete repo backupId with
  | .error e => (repo, .error e)
  | .ok () =>
    match stopped with
    | none => (repo.deleteObjects (objectsOf repo backupId), .ok ())
    | some keys =>
      (repo.deleteObjects (keys.filter (· ∈ objectsOf repo backupId)), .error "interrupted")

/-! ## Creating -/

def repositoryGenerationOf : Result (Option RecoveryGeneration) :=
  match repo.get? repositoryGeneration with
  | none => pure none
  | some bytes => do pure (some (← decodeGeneration bytes))

/-- Publish the generation of the source engine; `source` is none without one. -/
def syncRecoveryGeneration (source : Option (Option RecoveryGeneration)) :
    BackupRepository × Result (Option RecoveryGeneration) :=
  match repositoryGenerationOf repo with
  | .error e => (repo, .error e)
  | .ok known =>
    match source with
    | none => (repo, .ok known)
    | some current =>
      if current = none ∧ known ≠ none then
        (repo, .error "repository has checkpoint history missing from this source")
      else
        match current with
        | some generation =>
          (if current ≠ known then
              repo.insert repositoryGeneration (BackupCodec.generationText (1, generation))
            else repo, .ok current)
        | none => (repo, .ok current)

def validateExportGeneration (source : Option (Option RecoveryGeneration))
    (objects : List BackupObject) : BackupRepository × Result Unit :=
  let (repo, current) := syncRecoveryGeneration repo source
  (repo, do
    let current ← current
    let generation ← objectGeneration objects
    ensure (generation = current) "backup export belongs to another recovery generation")

def uploadObjects (backupId : Bytes) (objects : List BackupObject) :
    BackupRepository × List Bytes × OrdMap Bytes Digest :=
  objects.foldl
    (fun (repo, files, checksums) object =>
      let key := dataKey backupId object.name
      (repo.insert key object.bytes, files ++ [key],
        checksums.insert key (Hashes.sha256 object.bytes)))
    (repo, [], .empty)

/-- Write the pending manifest, check the objects, and publish the complete one. -/
def publish (pending : BackupManifest) : BackupRepository × Result BackupManifest :=
  let repo := repo.insert (pendingManifestKey pending.backupId) (BackupCodec.manifestText pending)
  match verifyManifestFiles repo pending with
  | .error e => (repo, .error e)
  | .ok () =>
    if BackupRepository.objectExists repo (manifestKey pending.backupId) then
      (repo, .error "completed manifest already exists")
    else
      let completed := { pending with status := .completed }
      let repo := repo.insert (manifestKey pending.backupId) (BackupCodec.manifestText completed)
      match verify repo pending.backupId with
      | .error e => (repo, .error e)
      | .ok () => (repo.erase (pendingManifestKey pending.backupId), .ok completed)

structure BackupRequest where
  backupId : Bytes
  clusterId : Bytes
  backupTs : Nat
  clusterVersion : Nat
  objects : List BackupObject
  deriving DecidableEq

/-- Upload the objects and publish the manifest. `lower` is where the protected
history begins. -/
def createFrom (request : BackupRequest) (backupType : BackupType) (parent : Option Bytes)
    (lower : Nat) : BackupRepository × Result BackupManifest :=
  let (repo, files, checksums) := uploadObjects repo request.backupId request.objects
  publish repo
    { manifestVersion := (manifestFormat request.clusterVersion).1
      objectFormatVersion := (manifestFormat request.clusterVersion).2
      backupId := request.backupId
      clusterId := request.clusterId
      timelineId := defaultTimelineId
      backupType := backupType
      parentBackupId := parent
      snapshotTs := request.backupTs
      files := files
      checksums := checksums
      protectedTimestamp :=
        some ⟨ascii "backup-" ++ request.backupId, lower, request.backupTs⟩
      status := .verifying }

def createFullBackupNamed (source : Option (Option RecoveryGeneration)) (request : BackupRequest) :
    BackupRepository × Result BackupManifest :=
  match validateExportGeneration repo source request.objects with
  | (repo, .error e) => (repo, .error e)
  | (repo, .ok ()) => createFrom repo request .full none 0

/-- The checks of an incremental backup that change nothing. -/
def checkParent (request : BackupRequest) (parent : Bytes) : Result BackupManifest := do
  ensure (request.objects ≠ []) "incremental backup requires at least one changed object"
  verify repo parent
  let manifest ← loadManifest repo parent
  ensure (manifest.clusterId = request.clusterId) "parent backup belongs to another cluster"
  ensure (manifest.snapshotTs < request.backupTs)
    "incremental backup timestamp must be greater than parent snapshot"
  pure manifest

def createIncrementalBackupNamed (source : Option (Option RecoveryGeneration))
    (request : BackupRequest) (parent : Bytes) : BackupRepository × Result BackupManifest :=
  match checkParent repo request parent with
  | .error e => (repo, .error e)
  | .ok manifest =>
    match validateExportGeneration repo source request.objects with
    | (repo, .error e) => (repo, .error e)
    | (repo, .ok ()) =>
      match manifestGeneration repo manifest, objectGeneration request.objects with
      | .ok parentGeneration, .ok generation =>
        if parentGeneration = generation then
          createFrom repo request .incremental (some parent) manifest.snapshotTs
        else (repo, .error "incremental backup crosses a storage checkpoint")
      | .error e, _ | _, .error e => (repo, .error e)

inductive Call
  | createFull (source : Option (Option RecoveryGeneration)) (request : BackupRequest)
  | createIncremental (source : Option (Option RecoveryGeneration)) (request : BackupRequest)
      (parent : Bytes)
  | delete (backupId : Bytes) (stopped : Option (List Bytes))
  deriving DecidableEq

def call : Call → BackupRepository
  | .createFull source request => (createFullBackupNamed repo source request).1
  | .createIncremental source request parent =>
    (createIncrementalBackupNamed repo source request parent).1
  | .delete backupId stopped => (deleteBackup repo backupId stopped).1

def Step (repo : BackupRepository) (c : Call) (repo' : BackupRepository) : Prop :=
  call repo c = repo'

/-! ## Retention -/

def protectedGcWatermark : Option Nat :=
  let scan := scanManifests repo
  if scan.unreadable ≠ [] then some 0
  else (scan.completed.filterMap fun m => m.protectedTimestamp.map fun _ => m.snapshotTs).min?

def walCleanupAllowed : Bool :=
  let scan := scanManifests repo
  scan.completed.isEmpty && scan.unreadable.isEmpty

/-- The indexes in the archive, by the text of their segment id. -/
def loadWalArchiveIndexes : Result (List WalArchiveIndex) := do
  let keys := (repo.listObjects (ascii "wal_archive/")).filter (ascii ".index.json").isSuffixOf
  let indexes ← keys.mapM fun key => do
    let bytes ← repo.getObject key
    required (BackupCodec.parseIndex bytes) "invalid JSON"
  pure (indexes.insertionSort fun a b => a.segmentId ≤ b.segmentId)

/-- Whether the indexes show that no restore point from `oldest` on needs a segment. -/
def segmentFree (indexes : List WalArchiveIndex) (oldest : Nat) (filename : Bytes) : Bool :=
  match indexes.find? fun i => i.segmentId = filename ∨ i.walObjectKey = walKey filename with
  | none => false
  | some index =>
    if index.lastCommitTs.any (oldest ≤ ·) then false
    else
      let needed :=
        (indexes.flatMap (·.committedTxns)).filter fun c => decide (oldest ≤ c.commitTs)
      !index.recordTxnIds.any fun id => needed.any (·.txnId = id)

def walSegmentCleanupAllowed (filename : Bytes) : Result Bool :=
  let scan := scanManifests repo
  if scan.unreadable ≠ [] then pure false
  else if scan.completed = [] then pure true
  else do
    let oldest ← required
      (scan.completed.filterMap fun m => m.protectedTimestamp.map fun _ => m.snapshotTs).min?
      "retained backups have no protected timestamps"
    let indexes ← loadWalArchiveIndexes repo
    pure (segmentFree indexes oldest filename)

end BackupOrchestrator

end NodusDb
