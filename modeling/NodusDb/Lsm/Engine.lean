import NodusDb.Lsm.Wal
import NodusDb.Storage.Mem

/-!
# The persistent engine

`LsmKvEngine` with a data directory. A mutation appends to the active log segment and changes the
memtable; a flush writes the keys without intents to a table file, rotates the log and publishes a
manifest; a compaction merges all table files. Calls come one after the other, so the locks and the
count of appends in flight do not appear. What can fail is a conflict, a missing file, or the end of
the file ids; input and output succeed. `now` is the wall clock of a call.
-/

namespace NodusDb.Lsm

/-- Flush once the memtable reaches this many bytes. -/
def defaultFlushThreshold : Nat := 4 * 1024 * 1024

/-- Compact once this many table files have accumulated. -/
def compactionTrigger : Nat := 4

inductive LsmError
  | kv (e : KvError)
  | read (e : ReadFault)
  | fileIdsExhausted
  deriving DecidableEq, Repr

abbrev Outcome := Except LsmError Unit

structure LsmKvEngine where
  disk : Disk
  /-- The memtable and the intents index. -/
  table : Table Bytes
  /-- The ids of the live table files, oldest first. -/
  sstables : List Nat
  activeWal : Nat
  minReplayWal : Nat
  nextFileId : Nat
  memtableBytes : Nat
  flushThreshold : Nat
  gcWatermark : Nat
  deriving DecidableEq

/-- Approximate size of a key's chain in memory. -/
def chainBytes (key : Bytes) (chain : VersionChain Bytes) : Nat :=
  key.length + (chain.versions.map fun v => (v.value.map List.length).getD 0 + 24).sum

def storeBytes (store : Layer) : Nat :=
  (store.entries.map fun e => chainBytes e.1 e.2).sum

namespace LsmKvEngine

variable [ChainCodec]

/-! ## Files -/

def saveManifest (s : LsmKvEngine) : LsmKvEngine :=
  { s with disk := { s.disk with manifest := some ⟨s.activeWal, s.sstables, s.minReplayWal⟩ } }

/-- The next id, or nothing at the end of the `u64` range. -/
def allocateFileId (s : LsmKvEngine) : Option (Nat × LsmKvEngine) :=
  if s.nextFileId + 1 ≤ u64Max then some (s.nextFileId, { s with nextFileId := s.nextFileId + 1 })
  else none

/-- The log segment that is open for appending. -/
def activeSegment (s : LsmKvEngine) : Segment := (s.disk.wals.get? s.activeWal).getD ⟨[], 0⟩

def setActiveSegment (s : LsmKvEngine) (seg : Segment) : LsmKvEngine :=
  { s with disk := { s.disk with wals := s.disk.wals.insert s.activeWal seg } }

def append (s : LsmKvEngine) (rs : List WalRecord) : LsmKvEngine :=
  s.setActiveSegment (s.activeSegment.append rs)

def sync (s : LsmKvEngine) : LsmKvEngine := s.setActiveSegment s.activeSegment.sync

/-- Build a table file under a fresh id. It is an orphan until a manifest names it. -/
def buildSst (s : LsmKvEngine) (data : Layer) :
    Option (Nat × LsmKvEngine) :=
  s.allocateFileId.map fun (id, s) =>
    (id, { s with disk := { s.disk with ssts := s.disk.ssts.insert id (Sstable.build data) } })

def readTables (disk : Disk) (ids : List Nat) : Except ReadFault (List Sstable) :=
  ids.mapM fun id =>
    match disk.ssts.get? id with
    | some t => .ok t
    | none => .error (.missingSstable id)

/-! ## Opening -/

def withWal (disk : Disk) (now : Nat) : Except OpenError LsmKvEngine :=
  match disk.manifest with
  | none =>
    if disk.wals.size ≠ 0 ∨ disk.ssts.size ≠ 0 then .error .notFresh
    else match NodusDb.Lsm.nextFileId disk 1 with
    | none => .error .fileIdsExhausted
    | some next =>
      let disk := { disk with wals := disk.wals.insert 1 ⟨[], 0⟩ }
      .ok (saveManifest ⟨disk, .empty, [], 1, 0, next, 0, defaultFlushThreshold, 0⟩)
  | some m =>
    let sstIds := m.sstables.insertionSort (· ≤ ·)
    match NodusDb.Lsm.nextFileId disk (sstIds.foldl max m.activeWal) with
    | none => .error .fileIdsExhausted
    | some next =>
      match scanChain disk.wals m.activeWal m.minReplayWal with
      | .error e => .error e
      | .ok segments =>
        let table := replay now segments
        .ok (saveManifest ⟨disk, table, sstIds, m.activeWal, m.minReplayWal, next,
          storeBytes table.store, defaultFlushThreshold, 0⟩)

/-! ## Flush and compaction -/

/-- Put a chain behind the chains already merged for its key. -/
def mergeEntry (merged : Layer) (e : Entry) :
    Layer :=
  merged.insert e.1 ⟨((merged.get? e.1).getD .empty).versions ++ e.2.versions⟩

def mergeTables (tables : List Sstable) : Layer :=
  tables.foldl (fun merged t => t.iter.foldl mergeEntry merged) .empty

def normalize (watermark : Nat) (chain : VersionChain Bytes) : VersionChain Bytes :=
  ((⟨dedupAdjacent (chain.versions.insertionSort fun a b => a.version ≤ b.version)⟩ :
    VersionChain Bytes).garbageCollect watermark .complete).1

def compactInner (s : LsmKvEngine) : LsmKvEngine × Outcome :=
  if s.sstables.length < 2 then (s, .ok ())
  else match readTables s.disk (s.sstables.insertionSort (· ≤ ·)) with
  | .error e => (s, .error (.read e))
  | .ok tables =>
    let merged := ((mergeTables tables).mapVals fun _ chain => normalize s.gcWatermark chain).filter
      fun _ chain => !chain.versions.isEmpty
    match s.buildSst merged with
    | none => (s, .error .fileIdsExhausted)
    | some (newId, s') =>
      let s' := saveManifest { s' with sstables := [newId] }
      -- The old files are deleted once the manifest no longer names them.
      ({ s' with disk := { s'.disk with
          ssts := s'.disk.ssts.filter fun id _ => decide (id ∉ s.sstables) } }, .ok ())

/-- The keys some transaction has an intent on. -/
def activeKeys (s : LsmKvEngine) : List Bytes := s.table.intents.values.flatten.map (·.1)

/-- Rotate the log and publish: the new segment follows the active one, the
floor moves only when no key was retained, and the flushed keys leave the
memtable. -/
def publishFlush (s : LsmKvEngine) (walId : Nat) (newSst : Option Nat) (hasRetained : Bool) :
    LsmKvEngine :=
  let store := s.table.store.filter fun key _ => decide (key ∈ s.activeKeys)
  let s' := saveManifest { s with
    disk := { s.disk with
      wals := s.disk.wals.insert walId ⟨[.segmentHeader (some s.activeWal)], 1⟩ }
    activeWal := walId
    sstables := s.sstables ++ newSst.toList
    minReplayWal := if hasRetained then s.minReplayWal else walId }
  { s' with table := { s'.table with store := store }, memtableBytes := storeBytes store }

def toFlush (s : LsmKvEngine) : Layer :=
  s.table.store.filter fun key _ => decide (key ∉ s.activeKeys)

def flushInner (s : LsmKvEngine) : LsmKvEngine × Outcome :=
  if s.table.store.size = 0 then (s, .ok ())
  else
    let hasRetained := decide (s.table.store.size ≠ s.toFlush.size)
    let built :=
      if s.toFlush.size = 0 then some (none, s)
      else (s.buildSst s.toFlush).map fun (id, s) => (some id, s)
    match built with
    | none => (s, .error .fileIdsExhausted)
    | some (newSst, s) =>
      match s.allocateFileId with
      | none => (s, .error .fileIdsExhausted)
      | some (walId, s) =>
        let s := s.publishFlush walId newSst hasRetained
        if compactionTrigger ≤ s.sstables.length then s.compactInner else (s, .ok ())

def maybeFlushBySize (s : LsmKvEngine) : LsmKvEngine × Outcome :=
  if s.flushThreshold ≤ s.memtableBytes then s.flushInner else (s, .ok ())

def addMemtableBytes (s : LsmKvEngine) (added : Nat) : LsmKvEngine :=
  { s with memtableBytes := (s.memtableBytes + added) % 2 ^ 64 }

/-! ## Mutations -/

def registered (s : LsmKvEngine) (table : Table Bytes) (added : Nat) : LsmKvEngine × Outcome :=
  (({ s with table := table } : LsmKvEngine).addMemtableBytes added).maybeFlushBySize

/-- The record goes to the log before the conflict check. -/
def writeIntent (s : LsmKvEngine) (txnId : TxnId) (key value : Bytes) (now : Nat) :
    LsmKvEngine × Outcome :=
  let s := s.append [.writeIntent txnId key value (some now)]
  match s.table.writeIntentImpl txnId key (some value) now with
  | .error e => (s, .error (.kv e))
  | .ok table => s.registered table (key.length + value.length + 32)

def deleteIntent (s : LsmKvEngine) (txnId : TxnId) (key : Bytes) (now : Nat) :
    LsmKvEngine × Outcome :=
  let s := s.append [.deleteIntent txnId key (some now)]
  match s.table.writeIntentImpl txnId key none now with
  | .error e => (s, .error (.kv e))
  | .ok table => s.registered table (key.length + 32)

def writeIntentBatch (s : LsmKvEngine) (txnId : TxnId) (ops : List (IntentOperation Bytes))
    (now : Nat) : LsmKvEngine × Outcome :=
  if ops.isEmpty then (s, .ok ())
  else match s.table.writeIntentBatch txnId ops now with
  | .error e => (s, .error (.kv e))
  | .ok table =>
    (s.append (ops.map (.ofOperation txnId now))).registered table
      (ops.map fun op => op.key.length + (op.value.map List.length).getD 0 + 32).sum

def replaceIntent (s : LsmKvEngine) (txnId : TxnId) (key : Bytes)
    (replacement : IntentReplacement Bytes) (now : Nat) : LsmKvEngine × Outcome :=
  let (table, result) := s.table.replaceIntent txnId key replacement now
  ({ s with table := table }, result.mapError .kv)

def commit (s : LsmKvEngine) (txnId : TxnId) (commitTs : Nat) : LsmKvEngine × Outcome :=
  let s := (s.append [.commitTxn txnId commitTs]).sync
  ({ s with table := s.table.commit txnId commitTs }, .ok ())

def commitBatch (s : LsmKvEngine) (commits : List (TxnId × Nat)) : LsmKvEngine × Outcome :=
  if commits.isEmpty then (s, .ok ())
  else
    let s := (s.append [.commitTxnBatchV1 commits]).sync
    ({ s with table := s.table.commitBatch commits }, .ok ())

def abort (s : LsmKvEngine) (txnId : TxnId) : LsmKvEngine × Outcome :=
  let s := (s.append [.abortTxn txnId]).sync
  ({ s with table := s.table.abort txnId }, .ok ())

def flush (s : LsmKvEngine) : LsmKvEngine × Outcome := s.flushInner

def compact (s : LsmKvEngine) : LsmKvEngine × Outcome := s.compactInner

/-- Collect the memtable and remember the watermark for the next compaction. -/
def garbageCollect (s : LsmKvEngine) (watermark : Nat) : LsmKvEngine × Nat :=
  let collected := s.table.store.mapVals fun _ chain => chain.garbageCollect watermark .layered
  let store := (collected.mapVals fun _ r => r.1).filter fun _ chain => !chain.versions.isEmpty
  ({ s with table := { s.table with store := store }, gcWatermark := watermark },
    (collected.values.map (·.2)).sum)

def setFlushThreshold (s : LsmKvEngine) (bytes : Nat) : LsmKvEngine :=
  { s with flushThreshold := bytes }

end LsmKvEngine

end NodusDb.Lsm
