import NodusDb.Lib.Run
import NodusDb.Storage.Publish
import NodusDb.Raft.Records

/-!
# Consensus records of a node

A node keeps its vote, its log and its applied state as records, each write in a transaction of its
own, stamped by a clock whose floor a restart resets. A record is read back at `u64::MAX`.

* `loadVote_last_saved`: when no vote is stamped below an earlier one, the last one is read back.
* `saved_vote_forgotten`: a vote stamped below an earlier one is not.
-/

namespace NodusDb.Raft

open List

/-! ## Records -/

structure LogId where
  term : UInt64
  nodeId : UInt64
  index : UInt64
  deriving DecidableEq, Repr

structure Vote where
  term : UInt64
  nodeId : UInt64
  committed : Bool
  deriving DecidableEq, Repr

structure Entry (P : Type) where
  logId : LogId
  payload : P
  deriving DecidableEq

def Entry.index {P : Type} (e : Entry P) : Nat := e.logId.index.toNat

structure AppliedState (M : Type) where
  lastApplied : Option LogId
  lastMembership : M
  lastPurged : Option LogId
  deriving DecidableEq

structure SnapshotMeta (M : Type) where
  lastLogId : Option LogId
  lastMembership : M
  snapshotId : String
  deriving DecidableEq

def raftVoteKey : Bytes := ascii "\x00raft\x00vote"

def raftAppliedKey : Bytes := ascii "\x00raft\x00applied"

def raftLogPrefix : Bytes := ascii "\x00raft\x00log\x00"

def raftLogEnd : Bytes := ascii "\x00raft\x00log\x01"

def raftSnapshotMetaKey : Bytes := ascii "\x00raft\x00snapshot_meta"

def logKey (index : UInt64) : Bytes := raftLogPrefix ++ toBeBytes index

@[simp] theorem length_logKey (index : UInt64) : (logKey index).length = 18 := by
  rw [logKey, length_append, toBeBytes, length_digits]
  rfl

/-- A stored record. In the source it is JSON in a versioned envelope. -/
inductive MetaRecord (P M : Type)
  | vote (vote : Vote)
  | entry (entry : Entry P)
  | applied (state : AppliedState M)
  | snapshotMeta (snapshot : SnapshotMeta M)
  deriving DecidableEq

def MetaRecord.key {P M : Type} : MetaRecord P M → Bytes
  | vote _ => raftVoteKey
  | entry e => logKey e.logId.index
  | applied _ => raftAppliedKey
  | snapshotMeta _ => raftSnapshotMetaKey

/-! ## The store -/

structure RaftMetaStore (P M : Type) where
  kv : MemKvEngine (MetaRecord P M)
  lastTs : Nat
  deriving DecidableEq

namespace RaftMetaStore

variable {P M : Type}

/-- A store over an engine, as a process opens it. -/
def new (kv : MemKvEngine (MetaRecord P M)) : RaftMetaStore P M := ⟨kv, 0⟩

/-- The next timestamp; the increment is a machine addition. -/
def nextTs (s : RaftMetaStore P M) (wall : UInt64) : Nat :=
  max wall.toNat ((s.lastTs + 1) % 2 ^ 64)

/-- Write some keys in a transaction of their own and commit it. If a write
fails, the transaction is aborted and the call fails. -/
def transact (s : RaftMetaStore P M) (txnId : TxnId) (wall : UInt64)
    (ops : List (IntentOperation (MetaRecord P M))) : Except KvError (RaftMetaStore P M) := do
  let kv ← ops.foldlM (fun kv op => kv.writeIntentImpl txnId op.key op.value 0) s.kv
  let ts := s.nextTs wall
  .ok ⟨kv.commit txnId ts, ts⟩

def putChecked (s : RaftMetaStore P M) (txnId : TxnId) (wall : UInt64) (key : Bytes)
    (value : MetaRecord P M) : Except KvError (RaftMetaStore P M) :=
  s.transact txnId wall [.put key value]

def deleteChecked (s : RaftMetaStore P M) (txnId : TxnId) (wall : UInt64) (key : Bytes) :
    Except KvError (RaftMetaStore P M) :=
  s.transact txnId wall [.delete key]

def putBatch (s : RaftMetaStore P M) (txnId : TxnId) (wall : UInt64)
    (items : List (Bytes × MetaRecord P M)) : Except KvError (RaftMetaStore P M) :=
  if items = [] then .ok s else s.transact txnId wall (items.map fun item => .put item.1 item.2)

def appendEntries (s : RaftMetaStore P M) (txnId : TxnId) (wall : UInt64)
    (entries : List (Entry P)) : Except KvError (RaftMetaStore P M) :=
  s.putBatch txnId wall (entries.map fun e => (logKey e.logId.index, .entry e))

def saveVote (s : RaftMetaStore P M) (txnId : TxnId) (wall : UInt64) (vote : Vote) :
    Except KvError (RaftMetaStore P M) :=
  s.putChecked txnId wall raftVoteKey (.vote vote)

/-- The saved vote, `none` on a first boot. -/
def loadVote (s : RaftMetaStore P M) : Result (Option Vote) :=
  match s.kv.get raftVoteKey u64Max with
  | none => .ok none
  | some (.vote vote) => .ok (some vote)
  | some _ => .error "decode persisted Raft vote"

def deleteEntry (s : RaftMetaStore P M) (txnId : TxnId) (wall : UInt64) (index : UInt64) :
    Except KvError (RaftMetaStore P M) :=
  s.deleteChecked txnId wall (logKey index)

/-- One row of the log, put under the index the entry itself names. -/
def loadRow (out : OrdMap Nat (Entry P)) (row : KvPair (MetaRecord P M)) :
    Result (OrdMap Nat (Entry P)) :=
  match row.value with
  | .entry e => .ok (out.insert e.index e)
  | _ => .error "decode persisted Raft log entry"

def loadLog (s : RaftMetaStore P M) : Result (OrdMap Nat (Entry P)) :=
  match s.kv.scan raftLogPrefix raftLogEnd u64Max with
  | .ok rows => rows.foldlM loadRow .empty
  | .error _ => .error "scan persisted Raft log"

def saveApplied (s : RaftMetaStore P M) (txnId : TxnId) (wall : UInt64) (state : AppliedState M) :
    Except KvError (RaftMetaStore P M) :=
  s.putChecked txnId wall raftAppliedKey (.applied state)

/-- The applied state; on a first boot it is the default one. -/
def loadApplied [Inhabited M] (s : RaftMetaStore P M) : Result (AppliedState M) :=
  match s.kv.get raftAppliedKey u64Max with
  | none => .ok ⟨none, default, none⟩
  | some (.applied state) => .ok state
  | some _ => .error "decode persisted Raft applied state"

def saveSnapshotMeta (s : RaftMetaStore P M) (txnId : TxnId) (wall : UInt64)
    (snapshot : SnapshotMeta M) : Except KvError (RaftMetaStore P M) :=
  s.putChecked txnId wall raftSnapshotMetaKey (.snapshotMeta snapshot)

/-- Tombstones and the purge watermark in one transaction. -/
def purgeBatch (s : RaftMetaStore P M) (txnId : TxnId) (wall : UInt64) (entries : List LogId)
    (applied : AppliedState M) : Except KvError (RaftMetaStore P M) :=
  s.transact txnId wall
    (entries.map (fun e => .delete (logKey e.index)) ++ [.put raftAppliedKey (.applied applied)])

end RaftMetaStore

inductive MetaCall (P M : Type)
  | saveVote (vote : Vote)
  | appendEntries (entries : List (Entry P))
  | deleteEntry (index : UInt64)
  | saveApplied (state : AppliedState M)
  | purgeBatch (entries : List LogId) (applied : AppliedState M)
  | saveSnapshotMeta (snapshot : SnapshotMeta M)
  deriving DecidableEq

/-- The writes in the transaction of a call. -/
def MetaCall.ops {P M : Type} : MetaCall P M → List (IntentOperation (MetaRecord P M))
  | saveVote vote => [.put raftVoteKey (.vote vote)]
  | appendEntries entries => entries.map fun e => .put (logKey e.logId.index) (.entry e)
  | deleteEntry index => [.delete (logKey index)]
  | saveApplied state => [.put raftAppliedKey (.applied state)]
  | purgeBatch entries applied =>
    entries.map (fun e => .delete (logKey e.index)) ++ [.put raftAppliedKey (.applied applied)]
  | saveSnapshotMeta snapshot => [.put raftSnapshotMetaKey (.snapshotMeta snapshot)]

namespace RaftMetaStore

variable {P M : Type}

def perform (s : RaftMetaStore P M) (txnId : TxnId) (wall : UInt64) :
    MetaCall P M → Except KvError (RaftMetaStore P M)
  | .saveVote vote => s.saveVote txnId wall vote
  | .appendEntries entries => s.appendEntries txnId wall entries
  | .deleteEntry index => s.deleteEntry txnId wall index
  | .saveApplied state => s.saveApplied txnId wall state
  | .purgeBatch entries applied => s.purgeBatch txnId wall entries applied
  | .saveSnapshotMeta snapshot => s.saveSnapshotMeta txnId wall snapshot

structure Clean (s : RaftMetaStore P M) : Prop where
  wf : s.kv.WF
  settled : ∀ j, (s.kv.view j).pending = none

/-- The key has no version above the next timestamp. -/
def Above (s : RaftMetaStore P M) (wall : UInt64) (key : Bytes) : Prop :=
  ∀ m ∈ (s.kv.view key).commits, m.version ≤ s.nextTs wall

instance (s : RaftMetaStore P M) (wall : UInt64) (key : Bytes) : Decidable (s.Above wall key) :=
  inferInstanceAs (Decidable (∀ m ∈ _, _))

variable {s : RaftMetaStore P M} {txnId : TxnId} {wall : UInt64}
  {ops : List (IntentOperation (MetaRecord P M))}

theorem Clean.owner (h : s.Clean) (j : Bytes) : (s.kv.view j).owner = none := by
  rw [KeyState.owner, h.settled]
  rfl

theorem Clean.idle (h : s.Clean) (j : Bytes) : (s.kv.view j).owner ≠ some txnId := by
  rw [h.owner]
  nofun

theorem Clean.free (h : s.Clean) (op : IntentOperation (MetaRecord P M)) (_ : op ∈ ops) :
    ¬ (s.kv.view op.key).blocks txnId :=
  KeyState.not_blocks_of_pending (h.settled op.key)

theorem clean_new (h : s.Clean) : (new s.kv).Clean := ⟨h.wf, h.settled⟩

theorem clean_empty : (new (P := P) (M := M) .empty).Clean := ⟨Table.wf_empty, fun _ => rfl⟩

theorem transact_eq (h : s.Clean) :
    s.transact txnId wall ops =
      .ok ⟨s.kv.publish txnId ops (s.nextTs wall), s.nextTs wall⟩ := by
  rw [transact, Table.foldlM_write_eq ops s.kv h.wf h.free]
  rfl

theorem perform_eq (h : s.Clean) (txnId : TxnId) (wall : UInt64) (call : MetaCall P M) :
    s.perform txnId wall call = .ok s ∧ call.ops = [] ∨
    s.perform txnId wall call =
      .ok ⟨s.kv.publish txnId call.ops (s.nextTs wall), s.nextTs wall⟩ := by
  cases call with
  | saveVote vote | deleteEntry index | saveApplied state | purgeBatch entries applied
  | saveSnapshotMeta snapshot => exact .inr (transact_eq h)
  | appendEntries entries =>
    cases entries with
    | nil => exact .inl ⟨rfl, rfl⟩
    | cons e es =>
      right
      rw [perform, appendEntries, putBatch, if_neg (by simp), transact_eq h, map_map]
      rfl

theorem Clean.publish (h : s.Clean) (ts last : Nat) :
    (⟨s.kv.publish txnId ops ts, last⟩ : RaftMetaStore P M).Clean := by
  refine ⟨h.wf.publish, fun j => ?_⟩
  rw [Table.view_publish h.wf h.idle h.free]
  split
  · rfl
  · exact h.settled j

theorem nextTs_le_u64Max : s.nextTs wall ≤ u64Max := by
  have hwall := wall.toNat_lt
  have hmod := Nat.mod_lt (s.lastTs + 1) (show 0 < 2 ^ 64 by decide)
  show max wall.toNat ((s.lastTs + 1) % 2 ^ 64) ≤ 2 ^ 64 - 1
  omega

theorem get_publish (h : s.Clean) (habove : written j ops ≠ none → s.Above wall j) :
    MemKvEngine.get (s.kv.publish txnId ops (s.nextTs wall)) j u64Max =
      (written j ops).getD (s.kv.get j u64Max) :=
  MemKvEngine.get_publish h.wf h.idle h.free nextTs_le_u64Max habove

end RaftMetaStore

/-! ## Votes -/

/-- A write of the store at a wall-clock reading, or a restart of the process. -/
inductive MetaLabel (P M : Type)
  | call (call : MetaCall P M) (txnId : TxnId) (wall : UInt64)
  | restart
  deriving DecidableEq

def MetaLabel.savedVote {P M : Type} : MetaLabel P M → Option Vote
  | call (.saveVote vote) _ _ => some vote
  | _ => none

namespace RaftMetaStore

variable {P M : Type} {s t : RaftMetaStore P M} {txnId : TxnId} {wall : UInt64}

/-- The store after a call that returns `Ok`, or after a restart. -/
def step (s : RaftMetaStore P M) : MetaLabel P M → Option (RaftMetaStore P M)
  | .call call txnId wall => (s.perform txnId wall call).toOption
  | .restart => some (new s.kv)

/-- A vote is not stamped below an earlier one. -/
def VoteAbove (s : RaftMetaStore P M) : MetaLabel P M → Prop
  | .call (.saveVote _) _ wall => s.Above wall raftVoteKey
  | _ => True

instance (s : RaftMetaStore P M) (label : MetaLabel P M) : Decidable (s.VoteAbove label) := by
  unfold VoteAbove
  split <;> infer_instance

theorem step_call (h : s.Clean) (hs : s.step (.call call txnId wall) = some t) :
    t = s ∧ call.ops = [] ∨
      t = ⟨s.kv.publish txnId call.ops (s.nextTs wall), s.nextTs wall⟩ := by
  rcases perform_eq h txnId wall call with ⟨heq, hnil⟩ | heq
  · rw [step, heq] at hs
    cases hs
    exact .inl ⟨rfl, hnil⟩
  · rw [step, heq] at hs
    cases hs
    exact .inr rfl

variable {label : MetaLabel P M}

theorem Clean.step (h : s.Clean) (hs : s.step label = some t) : t.Clean := by
  cases label with
  | call call txnId wall =>
    rcases step_call h hs with ⟨rfl, -⟩ | rfl
    · exact h
    · exact h.publish _ _
  | restart =>
    cases hs
    exact clean_new h

theorem written_raftVoteKey (h : (MetaLabel.call call txnId wall).savedVote = none) :
    written raftVoteKey call.ops = none := by
  rw [written_eq_none]
  intro op hop
  -- the reserved keys differ in length
  suffices op.key.length ≠ raftVoteKey.length from fun heq => this (congrArg length heq)
  cases call with
  | saveVote vote => cases h
  | appendEntries entries =>
    obtain ⟨e, -, rfl⟩ := mem_map.mp hop
    rw [IntentOperation.key, length_logKey]
    decide
  | deleteEntry index =>
    rw [mem_singleton.mp hop, IntentOperation.key, length_logKey]
    decide
  | saveApplied state | saveSnapshotMeta snapshot =>
    rw [mem_singleton.mp hop, IntentOperation.key]
    decide
  | purgeBatch entries applied =>
    rcases mem_append.mp hop with hop | hop
    · obtain ⟨e, -, rfl⟩ := mem_map.mp hop
      rw [IntentOperation.key, length_logKey]
      decide
    · rw [mem_singleton.mp hop, IntentOperation.key]
      decide

theorem loadVote_congr (h : s.kv.get raftVoteKey u64Max = t.kv.get raftVoteKey u64Max) :
    s.loadVote = t.loadVote := by
  rw [loadVote, h, loadVote]

theorem loadVote_saveVote (h : s.Clean) (habove : s.Above wall raftVoteKey)
    (hs : s.step (.call (.saveVote vote) txnId wall) = some t) : t.loadVote = .ok (some vote) := by
  rcases step_call h hs with ⟨-, hnil⟩ | rfl
  · cases hnil
  have hw : written raftVoteKey (MetaCall.saveVote (P := P) (M := M) vote).ops =
      some (some (.vote vote)) := rfl
  rw [loadVote, get_publish h fun _ => habove, hw]
  rfl

theorem loadVote_of_savedVote_eq_none (h : s.Clean)
    (hnone : label.savedVote = none) (hs : s.step label = some t) : t.loadVote = s.loadVote := by
  cases label with
  | restart =>
    cases hs
    rfl
  | call call txnId wall =>
    rcases step_call h hs with ⟨rfl, -⟩ | rfl
    · rfl
    have hw := written_raftVoteKey hnone
    refine loadVote_congr ?_
    rw [get_publish h fun hne => absurd hw hne, hw, Option.getD_none]

theorem loadVote_step (h : s.Clean) (hok : s.VoteAbove label) (hs : s.step label = some t)
    (hlast : s.loadVote = .ok last) :
    t.loadVote = .ok (label.savedVote.or last) := by
  cases hv : label.savedVote with
  | none => rw [loadVote_of_savedVote_eq_none h hv hs, hlast, Option.none_or]
  | some vote =>
    unfold MetaLabel.savedVote at hv
    split at hv
    · cases hv
      exact loadVote_saveVote h hok hs
    · cases hv

end RaftMetaStore

/-- The vote of the last `save_vote`. -/
def lastVote {P M : Type} (labels : List (MetaLabel P M)) : Option Vote :=
  labels.foldl (fun last label => label.savedVote.or last) none

/-- In a run that stamps no vote below an earlier one, the vote read back is the
last one saved. -/
theorem loadVote_last_saved {P M : Type} {labels : List (MetaLabel P M)} {s : RaftMetaStore P M}
    (hr : Run (Guarded (fun s label t => RaftMetaStore.step s label = some t)
      RaftMetaStore.VoteAbove) (.new .empty) labels s) :
    s.loadVote = .ok (lastVote labels) := by
  suffices s.Clean ∧ s.loadVote = .ok (lastVote labels) from this.2
  induction hr with
  | nil => exact ⟨RaftMetaStore.clean_empty, rfl⟩
  | snoc _ ha ih =>
    obtain ⟨hclean, hvote⟩ := ih
    refine ⟨hclean.step ha.2, ?_⟩
    rw [RaftMetaStore.loadVote_step hclean ha.1 ha.2 hvote, lastVote, lastVote, foldl_append]
    rfl

/-- Two votes with a restart between them on a clock that goes back, but not
below the first vote, and an applied state saved below an earlier one. -/
def voteLabels : List (MetaLabel Unit Unit) :=
  [.call (.saveVote ⟨1, 1, false⟩) 1 100, .call (.saveApplied ⟨none, (), none⟩) 2 300, .restart,
    .call (.saveVote ⟨2, 1, false⟩) 3 150, .call (.saveApplied ⟨none, (), none⟩) 4 40]

theorem loadVote_last_saved_voteLabels :
    ∃ s, s.loadVote = .ok (some ⟨2, 1, false⟩) ∧ Run (Guarded (fun s label t =>
      RaftMetaStore.step s label = some t) RaftMetaStore.VoteAbove) (.new .empty) voteLabels s := by
  obtain ⟨s, hs⟩ : ∃ s, execOk RaftMetaStore.step RaftMetaStore.VoteAbove (.new .empty) voteLabels =
      some s := by
    decide +kernel
  have hr := run_of_execOk hs
  exact ⟨s, loadVote_last_saved hr, hr⟩

/-- A restart on a clock that went back: the vote saved last is not the one read. -/
theorem saved_vote_forgotten :
    ∃ s : RaftMetaStore Unit Unit,
      Run (fun s label t => RaftMetaStore.step s label = some t) (.new .empty)
        [.call (.saveVote ⟨1, 1, false⟩) 1 100, .restart, .call (.saveVote ⟨2, 2, false⟩) 2 50] s ∧
      s.loadVote = .ok (some ⟨1, 1, false⟩) := by
  exact exists_run (by decide +kernel)

end NodusDb.Raft
