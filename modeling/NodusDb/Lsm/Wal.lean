import NodusDb.Lsm.Sstable
import NodusDb.Storage.Table

/-!
# The data directory and the write-ahead log

The files are log segments, table files and the manifest that says which of them count. A segment is
its list of records and how many of them are durable. A rotated segment names its predecessor in a
header; recovery walks these from the active segment back to the replay floor (`scanChain`) and
applies the records in order (`replay`).
-/

namespace NodusDb.Lsm

inductive WalRecord
  | segmentHeader (predecessor : Option Nat)
  | beginTxn (txnId : TxnId)
  | writeIntent (txnId : TxnId) (key : Bytes) (value : Bytes) (startedAt : Option Nat)
  | commitTxn (txnId : TxnId) (commitTs : Nat)
  | commitTxnBatchV1 (commits : List (TxnId × Nat))
  | abortTxn (txnId : TxnId)
  | deleteIntent (txnId : TxnId) (key : Bytes) (startedAt : Option Nat)
  | checkpoint (ts : Nat)
  deriving DecidableEq, Repr

namespace WalRecord

def isHeader : WalRecord → Bool
  | segmentHeader _ => true
  | _ => false

def ofOperation (txnId : TxnId) (now : Nat) : IntentOperation Bytes → WalRecord
  | .put key value => writeIntent txnId key value (some now)
  | .delete key => deleteIntent txnId key (some now)

end WalRecord

/-- A log file: its records and how many of them have been synced. -/
structure Segment where
  records : List WalRecord
  synced : Nat
  deriving DecidableEq, Repr

namespace Segment

def append (seg : Segment) (rs : List WalRecord) : Segment :=
  { seg with records := seg.records ++ rs }

def sync (seg : Segment) : Segment := { seg with synced := seg.records.length }

/-- The segment the header of this one names. -/
def predecessor (records : List WalRecord) : Option Nat :=
  match records with
  | .segmentHeader predecessor :: _ => predecessor
  | _ => none

end Segment

structure Manifest where
  activeWal : Nat
  sstables : List Nat
  minReplayWal : Nat
  deriving DecidableEq, Repr

structure Disk where
  wals : OrdMap Nat Segment
  ssts : OrdMap Nat Sstable
  manifest : Option Manifest
  deriving DecidableEq

inductive OpenError
  /-- No manifest, but files that a manifest would have to name. -/
  | notFresh
  | fileIdsExhausted
  | invalidBounds (active floor : Nat)
  | cycle (id : Nat)
  | missingWal (id : Nat)
  | misplacedHeader (id : Nat)
  | missingHeader (id : Nat)
  | badPredecessor (id previous : Nat)
  | skipsFloor (id previous : Nat)
  | endsBeforeFloor (id : Nat)
  deriving DecidableEq, Repr

/-! ## Recovery -/

/-- Walk back from segment `id`, newest segment first. Predecessors are checked
to decrease, so `fuel` at least `id` is always enough. -/
def scanFrom (wals : OrdMap Nat Segment) (floor : Nat) :
    (fuel : Nat) → (visited : List Nat) → (id : Nat) → Except OpenError (List (List WalRecord))
  | 0, _, id => .error (.cycle id)
  | fuel + 1, visited, id =>
    if id ∈ visited then .error (.cycle id)
    else match wals.get? id with
    | none => .error (.missingWal id)
    | some seg =>
      if (seg.records.drop 1).any (·.isHeader) then .error (.misplacedHeader id)
      else if floor ≠ 0 ∧ ¬ seg.records.head?.any (·.isHeader) then .error (.missingHeader id)
      else match Segment.predecessor seg.records with
      | some previous =>
        if previous ∈ id :: visited then .error (.cycle id)
        else if ¬ (0 < previous ∧ previous < id) then .error (.badPredecessor id previous)
        else if 0 < floor ∧ id = floor then .ok [seg.records]
        else if previous < floor then .error (.skipsFloor id previous)
        else (scanFrom wals floor fuel (id :: visited) previous).map (seg.records :: ·)
      | none =>
        if 0 < floor ∧ id = floor then .ok [seg.records]
        else if 0 < floor then .error (.endsBeforeFloor id)
        else .ok [seg.records]

/-- The record lists recovery needs, newest segment first. -/
def scanChain (wals : OrdMap Nat Segment) (active floor : Nat) :
    Except OpenError (List (List WalRecord)) :=
  if 0 < active ∧ floor ≤ active then scanFrom wals floor active [] active
  else .error (.invalidBounds active floor)

/-- Apply one record. Failures of the chain operations are ignored, and an
intent is indexed whether or not it was accepted. -/
def replayRecord (now : Nat) (s : Table Bytes) : WalRecord → Table Bytes
  | .writeIntent txnId key value startedAt =>
    s.replayIntent txnId key (some value) (startedAt.getD now)
  | .deleteIntent txnId key startedAt => s.replayIntent txnId key none (startedAt.getD now)
  | .commitTxn txnId commitTs => s.commit txnId commitTs
  | .commitTxnBatchV1 commits => s.commitBatch commits
  | .abortTxn txnId => s.abort txnId
  | .segmentHeader _ | .beginTxn _ | .checkpoint _ => s

def replayRecords (now : Nat) (s : Table Bytes) (records : List WalRecord) : Table Bytes :=
  records.foldl (replayRecord now) s

theorem wf_replayRecord {now : Nat} {s : Table Bytes} (h : s.WF) (r : WalRecord) :
    (replayRecord now s r).WF := by
  cases r with
  | writeIntent txnId key value startedAt => exact h.replayIntent
  | deleteIntent txnId key startedAt => exact h.replayIntent
  | commitTxn txnId commitTs => exact h.commit commitTs
  | commitTxnBatchV1 commits => exact h.commitBatch commits
  | abortTxn txnId => exact h.abort
  | _ => exact h

theorem wf_replayRecords {now : Nat} {s : Table Bytes} (h : s.WF) (records : List WalRecord) :
    (replayRecords now s records).WF := by
  induction records generalizing s with
  | nil => exact h
  | cons r records ih => exact ih (wf_replayRecord h r)

theorem replayRecords_append (now : Nat) (s : Table Bytes) (rs rs' : List WalRecord) :
    replayRecords now s (rs ++ rs') = replayRecords now (replayRecords now s rs) rs' :=
  List.foldl_append

/-- Rebuild the table from scanned segments, oldest segment first. -/
def replay (now : Nat) (segments : List (List WalRecord)) : Table Bytes :=
  replayRecords now .empty segments.reverse.flatten

/-- The first file id above every id in use. -/
def nextFileId (disk : Disk) (publishedMax : Nat) : Option Nat :=
  let highWater := (disk.wals.keys ++ disk.ssts.keys).foldl max publishedMax
  if highWater + 1 ≤ u64Max then some (highWater + 1) else none

end NodusDb.Lsm
