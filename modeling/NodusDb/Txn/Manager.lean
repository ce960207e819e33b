import NodusDb.Lib.Run
import NodusDb.Storage.Api

/-!
# The transaction manager

`MemTxnManager` issues read and commit timestamps from one clock and keeps the records that a
conflict check may still need. It has a lock for the clock and one for the records. A call is the
steps it takes under them, and the steps of different threads interleave: `begin_txn` is `beginDraw`
and `beginInsert`, `commit_txn` is `commitCheck`, `commitTick` and `commitFinish` under one hold of
the records, `gc_watermark` is `gcScan` and `gcNow`; the other calls are one step each.

`Sys` also remembers what the program forgets: timestamps issued, commits, aborts, keys tracked.
-/

namespace NodusDb.Txn

open List

/-! ## Clock -/

structure HybridLogicalClock where
  last : Nat
  deriving DecidableEq, Repr

namespace HybridLogicalClock

/-- The clock without advancing it; `wall` is the wall-clock reading. -/
def now (wall : Nat) (c : HybridLogicalClock) : Nat := max wall c.last

/-- The next timestamp of a local event. The increment is a machine addition,
so it wraps at the top of the `u64` range. -/
def tick (wall : Nat) (c : HybridLogicalClock) : Nat × HybridLogicalClock :=
  let next := max wall ((c.last + 1) % 2 ^ 64)
  (next, ⟨next⟩)

end HybridLogicalClock

/-- How far ahead of an issued timestamp a durable reservation reaches. -/
def reservationWindow : Nat := 1000000

structure ClockState where
  hlc : HybridLogicalClock
  reserved : Nat
  deriving DecidableEq, Repr

/-- Cover `ts` by a reservation before it is handed out. `saved` is the answer
of the timestamp store, which is asked only when the reservation is crossed. -/
def reserveThrough (saved : Bool) (clock : ClockState) (ts : Nat) : Option ClockState :=
  if clock.reserved < ts then
    if saved then some { clock with reserved := min (ts + reservationWindow) u64Max } else none
  else some clock

/-! ## Records -/

inductive TxnState
  | pending
  | writing
  | prepared
  | committed
  | aborted
  | resolving
  deriving DecidableEq, Repr

structure TxnRecord where
  txnId : TxnId
  state : TxnState
  readTs : Nat
  commitTs : Option Nat
  writeSet : List Bytes
  deriving DecidableEq, Repr

abbrev Records := OrdMap TxnId TxnRecord

/-- The states in which a record may still become a committer. -/
def isOpen : TxnState → Bool
  | .pending | .writing | .prepared | .resolving => true
  | .committed | .aborted => false

/-- The states whose read timestamp holds the watermark back. -/
def isActive : TxnState → Bool
  | .pending | .writing | .prepared => true
  | .resolving | .committed | .aborted => false

/-- The smallest read timestamp among the records in a state `p`. -/
def oldest (p : TxnState → Bool) (records : Records) : Option Nat :=
  ((records.values.filter fun r => p r.state).map (·.readTs)).min?

/-- Whether `reap_finished` keeps a record, given the oldest open read timestamp. -/
def reapKeeps (watermark : Option Nat) (r : TxnRecord) : Bool :=
  if isOpen r.state then true
  else match r.state with
    | .aborted => false
    | .committed =>
      match watermark, r.commitTs with
      | some w, some c => decide (w ≤ c)
      | _, _ => false
    | _ => true

def reapFinished (records : Records) : Records :=
  records.filter fun _ r => reapKeeps (oldest isOpen records) r

/-- The conflict check of `commit_txn`: some other committed record is newer
than `readTs` and wrote a key of `writeSet`. -/
def conflicts (records : Records) (txnId : TxnId) (readTs : Nat)
    (writeSet : List Bytes) : Bool :=
  records.values.any fun other =>
    if other.txnId = txnId ∨ other.state ≠ .committed then false
    else match other.commitTs with
      | some c => decide (readTs < c) && writeSet.any fun k => other.writeSet.contains k
      | none => false

/-! ## Threads and steps -/

abbrev Thread := Nat

/-- Where a thread stands between two lock acquisitions of one call. -/
inductive Pc
  /-- Outside every call that takes more than one lock. -/
  | idle
  /-- In `begin_txn`: the timestamp is drawn, the record is not inserted. -/
  | begun (readTs : Nat)
  /-- In `commit_txn`, holding the records: the conflict check has passed. -/
  | checked (txnId : TxnId)
  /-- In `commit_txn`, holding the records: the commit timestamp is issued. -/
  | stamped (txnId : TxnId) (commitTs : Nat)
  /-- In `gc_watermark`, holding the records for reading: none is active. -/
  | noneActive
  deriving DecidableEq, Repr

/-- The transaction a thread is committing under the records lock. -/
def Pc.commits : Pc → Option TxnId
  | .checked txnId | .stamped txnId _ => some txnId
  | _ => none

structure Sys where
  records : Records
  clock : ClockState
  pc : Thread → Pc
  /-- The thread holding the records for writing. -/
  writer : Option Thread
  /-- The threads holding the records for reading. -/
  readers : List Thread
  /-- The read timestamp `begin_txn` returned for a transaction. -/
  readAt : TxnId → Option Nat
  /-- The timestamp `commit_txn` returned for a transaction. -/
  committedAt : TxnId → Option Nat
  /-- Whether `abort_txn` or a conflict has ended a transaction. -/
  aborted : TxnId → Bool
  /-- The keys `track_write` accepted for a transaction. -/
  tracked : TxnId → List Bytes

namespace Sys

/-- A fresh manager: no record, the clock where `new` or the timestamp store
sets it. -/
def init (clock : ClockState) : Sys where
  records := .empty
  clock := clock
  pc := fun _ => .idle
  writer := none
  readers := []
  readAt := fun _ => none
  committedAt := fun _ => none
  aborted := fun _ => false
  tracked := fun _ => []

/-- The records lock can be taken for writing. -/
def lockFree (s : Sys) : Bool := s.writer.isNone && s.readers.isEmpty

def setPc (s : Sys) (t : Thread) (p : Pc) : Sys := { s with pc := Function.update s.pc t p }

section

variable (s : Sys) (t : Thread) (p : Pc)

@[simp, grind =] theorem setPc_pc (u : Thread) : (s.setPc t p).pc u = if u = t then p else s.pc u :=
  Function.update_apply _ _ _ _

@[simp, grind =] theorem setPc_records : (s.setPc t p).records = s.records := rfl
@[simp, grind =] theorem setPc_clock : (s.setPc t p).clock = s.clock := rfl
@[simp, grind =] theorem setPc_writer : (s.setPc t p).writer = s.writer := rfl
@[simp, grind =] theorem setPc_readers : (s.setPc t p).readers = s.readers := rfl
@[simp, grind =] theorem setPc_readAt (id : TxnId) : (s.setPc t p).readAt id = s.readAt id := rfl
@[simp, grind =] theorem setPc_committedAt (id : TxnId) :
    (s.setPc t p).committedAt id = s.committedAt id := rfl
@[simp, grind =] theorem setPc_aborted (id : TxnId) : (s.setPc t p).aborted id = s.aborted id := rfl
@[simp, grind =] theorem setPc_tracked (id : TxnId) : (s.setPc t p).tracked id = s.tracked id := rfl

end

/-- Drop the record of a transaction that aborts. -/
def dropAborted (s : Sys) (txnId : TxnId) : Sys :=
  { s with
    records := s.records.erase txnId
    aborted := Function.update s.aborted txnId true }

section

variable (s : Sys) (txnId : TxnId)

@[simp, grind =] theorem dropAborted_records :
    (s.dropAborted txnId).records = s.records.erase txnId := rfl
@[simp, grind =] theorem dropAborted_aborted (id : TxnId) :
    (s.dropAborted txnId).aborted id = if id = txnId then true else s.aborted id :=
  Function.update_apply _ _ _ _

@[simp, grind =] theorem dropAborted_pc (t : Thread) : (s.dropAborted txnId).pc t = s.pc t := rfl

@[simp, grind =] theorem dropAborted_readAt (id : TxnId) :
    (s.dropAborted txnId).readAt id = s.readAt id := rfl
@[simp, grind =] theorem dropAborted_tracked (id : TxnId) :
    (s.dropAborted txnId).tracked id = s.tracked id := rfl
@[simp, grind =] theorem dropAborted_committedAt (id : TxnId) :
    (s.dropAborted txnId).committedAt id = s.committedAt id := rfl

end

end Sys

inductive Label
  | beginDraw (t : Thread) (wall : UInt64)
  | beginInsert (t : Thread) (txnId : TxnId)
  | trackWrite (txnId : TxnId) (key : Bytes)
  | commitCheck (t : Thread) (txnId : TxnId)
  | commitTick (t : Thread) (wall : UInt64) (saved : Bool)
  | commitFinish (t : Thread)
  | abortTxn (txnId : TxnId)
  | reap
  | gcScan (t : Thread)
  | gcNow (t : Thread) (wall : UInt64)
  deriving DecidableEq, Repr

namespace Sys

/-- First half of `begin_txn`. -/
def beginDraw (s : Sys) (t : Thread) (wall : UInt64) : Option Sys :=
  match s.pc t with
  | .idle =>
    let (ts, hlc) := s.clock.hlc.tick wall.toNat
    some { s.setPc t (.begun ts) with clock := { s.clock with hlc := hlc } }
  | _ => none

/-- Second half of `begin_txn`. The id is freshly drawn: no earlier
transaction has it. -/
def beginInsert (s : Sys) (t : Thread) (txnId : TxnId) : Option Sys :=
  match s.pc t with
  | .begun readTs =>
    if s.lockFree ∧ s.readAt txnId = none then
      let record : TxnRecord := ⟨txnId, .pending, readTs, none, []⟩
      some { s.setPc t .idle with
        records := s.records.insert txnId record
        readAt := Function.update s.readAt txnId (some readTs) }
    else none
  | _ => none

def trackWrite (s : Sys) (txnId : TxnId) (key : Bytes) : Option Sys :=
  if s.lockFree then
    match s.records.get? txnId with
    | some record =>
      let record := { record with writeSet := record.writeSet ++ [key] }
      some { s with
        records := s.records.insert txnId record
        tracked := Function.update s.tracked txnId (s.tracked txnId ++ [key]) }
    | none => some s
  else none

/-- `commit_txn` up to the end of the conflict check. On a missing record or a
finished state the call fails at once; on a conflict it drops the record. -/
def commitCheck (s : Sys) (t : Thread) (txnId : TxnId) : Option Sys :=
  match s.pc t with
  | .idle =>
    if s.lockFree then
      match s.records.get? txnId with
      | none => some s
      | some record =>
        if record.state ≠ .pending ∧ record.state ≠ .writing then some s
        else if conflicts s.records txnId record.readTs record.writeSet then
          some (s.dropAborted txnId)
        else some { s.setPc t (.checked txnId) with writer := some t }
    else none
  | _ => none

/-- `commit_txn` under the clock lock. A failed reservation fails the commit
and leaves the record as it is; the clock has moved all the same. -/
def commitTick (s : Sys) (t : Thread) (wall : UInt64) (saved : Bool) : Option Sys :=
  match s.pc t with
  | .checked txnId =>
    let (ts, hlc) := s.clock.hlc.tick wall.toNat
    let clock := { s.clock with hlc := hlc }
    match reserveThrough saved clock ts with
    | some clock => some { s.setPc t (.stamped txnId ts) with clock := clock }
    | none => some { s.setPc t .idle with clock := clock, writer := none }
  | _ => none

/-- The end of `commit_txn`: publish the commit, reap, release the records. -/
def commitFinish (s : Sys) (t : Thread) : Option Sys :=
  match s.pc t with
  | .stamped txnId ts =>
    match s.records.get? txnId with
    | some record =>
      let record := { record with state := .committed, commitTs := some ts }
      some { s.setPc t .idle with
        records := reapFinished (s.records.insert txnId record)
        writer := none
        committedAt := Function.update s.committedAt txnId (some ts) }
    | none => none
  | _ => none

def abortTxn (s : Sys) (txnId : TxnId) : Option Sys :=
  if s.lockFree then
    match s.records.get? txnId with
    | some record =>
      if record.state = .committed then some s
      else some (s.dropAborted txnId)
    | none => some s
  else none

def reap (s : Sys) : Option Sys :=
  if s.lockFree then some { s with records := reapFinished s.records } else none

/-- `gc_watermark` under the records lock. With an active transaction it
returns here; otherwise it keeps the lock and goes on to the clock. -/
def gcScan (s : Sys) (t : Thread) : Option Sys :=
  match s.pc t with
  | .idle =>
    if s.writer.isNone then
      match oldest isActive s.records with
      | some _ => some s
      | none => some { s.setPc t .noneActive with readers := t :: s.readers }
    else none
  | _ => none

def gcNow (s : Sys) (t : Thread) : Option Sys :=
  match s.pc t with
  | .noneActive => some { s.setPc t .idle with readers := s.readers.filter (· ≠ t) }
  | _ => none

/-- One step; `none` when the label is not enabled. -/
def step (s : Sys) : Label → Option Sys
  | .beginDraw t wall => s.beginDraw t wall
  | .beginInsert t txnId => s.beginInsert t txnId
  | .trackWrite txnId key => s.trackWrite txnId key
  | .commitCheck t txnId => s.commitCheck t txnId
  | .commitTick t wall saved => s.commitTick t wall saved
  | .commitFinish t => s.commitFinish t
  | .abortTxn txnId => s.abortTxn txnId
  | .reap => s.reap
  | .gcScan t => s.gcScan t
  | .gcNow t _ => s.gcNow t

def Step (s : Sys) (l : Label) (s' : Sys) : Prop := s.step l = some s'

/-- The value `gc_watermark` returns at a step, if it returns there. -/
def gcWatermark (s : Sys) : Label → Option Nat
  | .gcScan _ => oldest isActive s.records
  | .gcNow _ wall => some (s.clock.hlc.now wall.toNat)
  | _ => none

end Sys

/-! ## Small facts -/

variable {k : TxnId} {p : TxnState → Bool} {r : TxnRecord} {records : Records}

theorem oldest_le (h : oldest p records = some w) (hr : records.get? k = some r)
    (hp : p r.state = true) : w ≤ r.readTs := by
  have hmem : r.readTs ∈ (records.values.filter fun r => p r.state).map (·.readTs) :=
    mem_map.mpr ⟨r, mem_filter.mpr ⟨OrdMap.mem_values.mpr ⟨k, hr⟩, hp⟩, rfl⟩
  exact (min?_eq_some_iff.mp h).2 _ hmem

theorem exists_of_oldest (h : oldest p records = some w) :
    ∃ k r, records.get? k = some r ∧ p r.state = true ∧ r.readTs = w := by
  have hmem := (min?_eq_some_iff.mp h).1
  obtain ⟨r, hr, rfl⟩ := mem_map.mp hmem
  obtain ⟨hv, hp⟩ := mem_filter.mp hr
  obtain ⟨k, hk⟩ := OrdMap.mem_values.mp hv
  exact ⟨k, r, hk, hp, rfl⟩

theorem oldest_ne_none
    (hr : records.get? k = some r) (hp : p r.state = true) : oldest p records ≠ none := by
  intro h
  have hnil := min?_eq_none_iff.mp h
  have hmem : r.readTs ∈ (records.values.filter fun r => p r.state).map (·.readTs) :=
    mem_map.mpr ⟨r, mem_filter.mpr ⟨OrdMap.mem_values.mpr ⟨k, hr⟩, hp⟩, rfl⟩
  rw [hnil] at hmem
  exact absurd hmem not_mem_nil

theorem get?_reapFinished (records : Records) (k : TxnId) :
    (reapFinished records).get? k =
      (records.get? k).filter (reapKeeps (oldest isOpen records)) :=
  OrdMap.get?_filter _ _ _

theorem get?_of_reapFinished
    (h : (reapFinished records).get? k = some r) : records.get? k = some r := by
  rw [get?_reapFinished] at h
  exact (Option.filter_eq_some_iff.mp h).1

theorem reapKeeps_of_open (ho : records.get? k = some open') (hop : isOpen open'.state = true)
    (hs : r.state = .committed) (hc : r.commitTs = some c) (hlt : open'.readTs < c) :
    reapKeeps (oldest isOpen records) r = true := by
  cases hw : oldest isOpen records with
  | none => exact absurd hw (oldest_ne_none ho hop)
  | some w =>
    have hle := oldest_le hw ho hop
    simp only [reapKeeps, hs, isOpen, hc]
    simp only [Bool.false_eq_true, if_false, decide_eq_true_eq]
    exact hle.trans hlt.le

theorem tick_snd (wall : Nat) (c : HybridLogicalClock) :
    (c.tick wall).2.last = (c.tick wall).1 := rfl

theorem lt_tick (wall : Nat) {c : HybridLogicalClock} (h : c.last < u64Max) :
    c.last < (c.tick wall).1 := by
  have htop : u64Max + 1 = 2 ^ 64 := rfl
  have hmod : (c.last + 1) % 2 ^ 64 = c.last + 1 := Nat.mod_eq_of_lt (by omega)
  have hle : (c.last + 1) % 2 ^ 64 ≤ (c.tick wall).1 := le_max_right _ _
  omega

theorem reserveThrough_hlc (h : reserveThrough saved clock ts = some clock') :
    clock'.hlc = clock.hlc := by
  unfold reserveThrough at h
  split at h
  · split at h
    · cases h
      rfl
    · cases h
  · cases h
    rfl

theorem not_mem_of_not_conflicts (h : conflicts records txnId readTs writeSet = false)
    {other : TxnRecord} (ho : records.get? k = some other) (hne : other.txnId ≠ txnId)
    (hs : other.state = .committed) (hc : other.commitTs = some c) (hlt : readTs < c)
    {key : Bytes} (hk : key ∈ writeSet) : key ∉ other.writeSet := by
  intro hmem
  have hall := any_eq_false.mp h other (OrdMap.mem_values.mpr ⟨k, ho⟩)
  apply hall
  simp only [hne, hs, ne_eq, not_true_eq_false, or_self, if_false, hc, hlt, decide_true,
    Bool.true_and, any_eq_true]
  exact ⟨key, hk, by simpa using hmem⟩

end NodusDb.Txn
