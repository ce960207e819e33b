import NodusDb.Lib.Interval
import NodusDb.Raft.LogRecords

/-!
# The Raft log of a node

A node caches the log it has stored. `append_to_log` stores a batch in one transaction,
`delete_conflict_logs_since` deletes one entry at a time, `purge_log_prefix` removes batches that
carry the watermark, and `reconcile_torn_recovery` repairs what a crash has left. The clock readings
and transaction ids of the durable writes are arguments; a loop given fewer stops after them, as in
a crash.
-/

namespace NodusDb.Raft

variable {P M : Type}

/-- The log and its place in the state machine, as a running node has them. -/
structure NodusRaftStore (P M : Type) where
  metaStore : RaftMetaStore P M
  vote : Option Vote
  log : OrdMap Nat (Entry P)
  lastApplied : Option LogId
  lastMembership : M
  lastPurged : Option LogId
  deriving DecidableEq

structure LogState where
  lastPurgedLogId : Option LogId
  lastLogId : Option LogId
  deriving DecidableEq, Repr

/-! ## Recovery -/

/-- The index of a log id, 0 if there is none. -/
def indexOr0 (id : Option LogId) : Nat := (id.map (·.index.toNat)).getD 0

/-- Whether the recovered state was changed, and what it is then. -/
def reconcileTornRecovery (log : OrdMap Nat (Entry P)) (applied : AppliedState M) :
    Bool × OrdMap Nat (Entry P) × AppliedState M :=
  match applied.lastApplied with
  | none => (false, log, applied)
  | some appliedId =>
    let purgedIdx := indexOr0 applied.lastPurged
    let expected := appliedId.index.toNat - purgedIdx
    if expected = 0 then (false, log, applied)
    else
      let present := (log.range (purgedIdx + 1) (appliedId.index.toNat + 1)).length
      if present = expected ∧ (log.get? appliedId.index.toNat).map (·.logId) = some appliedId then
        (false, log, applied)
      else
        (true, log.filter fun n _ => decide (appliedId.index.toNat < n),
          { applied with lastPurged := some appliedId })

namespace NodusRaftStore

/-- Open a store on an engine. The repaired state is saved if that is possible. -/
def withKv [Inhabited M] (kv : MemKvEngine (MetaRecord P M)) (txnId : TxnId) (wall : UInt64) :
    Result (NodusRaftStore P M) := do
  let store := RaftMetaStore.new kv
  let log ← store.loadLog
  let vote ← store.loadVote
  let applied ← store.loadApplied
  let (changed, log, applied) := reconcileTornRecovery log applied
  let store :=
    if changed then
      match store.saveApplied txnId wall applied with
      | .ok saved => saved
      | .error _ => store
    else store
  .ok ⟨store, vote, log, applied.lastApplied, applied.lastMembership, applied.lastPurged⟩

def getLogState (st : NodusRaftStore P M) : LogState :=
  let last := st.log.values.getLast?.map (·.logId)
  ⟨st.lastPurged, last.or st.lastPurged⟩

/-! ## Changes of the log -/

def appendToLog (st : NodusRaftStore P M) (entries : List (Entry P)) (txnId : TxnId)
    (wall : UInt64) : Except KvError (NodusRaftStore P M) := do
  let store ← st.metaStore.appendEntries txnId wall entries
  .ok { st with metaStore := store, log := insertAll st.log entries }

/-- One round of the loop in `delete_conflict_logs_since`. -/
def deleteKey (st : NodusRaftStore P M) (key : Nat) (txnId : TxnId) (wall : UInt64) :
    Except KvError (NodusRaftStore P M) := do
  let store ← st.metaStore.deleteEntry txnId wall (UInt64.ofNat key)
  .ok { st with metaStore := store, log := st.log.erase key }

/-- The keys `delete_conflict_logs_since` deletes, in this order. -/
def conflictKeys (st : NodusRaftStore P M) (logId : LogId) : List Nat :=
  st.log.keys.filter fun n => decide (logId.index.toNat ≤ n)

def deleteConflictLogsSince (st : NodusRaftStore P M) (logId : LogId)
    (writes : List (TxnId × UInt64)) : Except KvError (NodusRaftStore P M) :=
  ((st.conflictKeys logId).zip writes).foldlM (fun st w => st.deleteKey w.1 w.2.1 w.2.2) st

def purgeBatchSize : Nat := 256

/-- The ids a round of the purge loop looks at: those up to the target, at most
one more than fits a batch. -/
def purgeIds (st : NodusRaftStore P M) (target : LogId) : List LogId :=
  ((st.log.range 0 (target.index.toNat + 1)).take (purgeBatchSize + 1)).map (·.2.logId)

def purgeEntries (st : NodusRaftStore P M) (target : LogId) : List LogId :=
  (st.purgeIds target).take (min (st.purgeIds target).length purgeBatchSize)

def purgeComplete (st : NodusRaftStore P M) (target : LogId) : Bool :=
  decide ((st.purgeIds target).length ≤ purgeBatchSize)

/-- The watermark of a batch: the target, or the last id of the batch. -/
def purgeWatermark (st : NodusRaftStore P M) (target : LogId) : LogId :=
  if st.purgeComplete target then target
  else ((st.purgeEntries target)[purgeBatchSize - 1]?).getD target

/-- One round of the loop in `purge_log_prefix`, and whether it is the last. -/
def purgeRound (st : NodusRaftStore P M) (target : LogId) (txnId : TxnId) (wall : UInt64) :
    Except KvError (NodusRaftStore P M × Bool) := do
  let store ← st.metaStore.purgeBatch txnId wall (st.purgeEntries target)
    ⟨st.lastApplied, st.lastMembership, some (st.purgeWatermark target)⟩
  .ok ({ st with
    metaStore := store
    log := eraseAll st.log ((st.purgeEntries target).map (·.index.toNat))
    lastPurged := some (st.purgeWatermark target) }, st.purgeComplete target)

def purgeLoop (st : NodusRaftStore P M) (target : LogId) :
    List (TxnId × UInt64) → Except KvError (NodusRaftStore P M)
  | [] => .ok st
  | w :: writes => do
    let (st, complete) ← st.purgeRound target w.1 w.2
    if complete then .ok st else purgeLoop st target writes

def purged (st : NodusRaftStore P M) (target : LogId) : Bool :=
  st.lastPurged.any fun id => decide (target.index ≤ id.index)

def purgeLogPrefix (st : NodusRaftStore P M) (target : LogId) (writes : List (TxnId × UInt64)) :
    Except KvError (NodusRaftStore P M) :=
  if st.purged target then .ok st
  else st.purgeLoop target writes

def persistApplied (st : NodusRaftStore P M) (txnId : TxnId) (wall : UInt64) :
    Except KvError (NodusRaftStore P M) := do
  let store ← st.metaStore.saveApplied txnId wall
    ⟨st.lastApplied, st.lastMembership, st.lastPurged⟩
  .ok { st with metaStore := store }

end NodusRaftStore

/-! ## Unbroken logs -/

/-- The log has every index from just above the watermark up to its last one.
Without a watermark a log starts at index 0 or at index 1. -/
structure Unbroken (purged : Option LogId) (log : OrdMap Nat (Entry P)) : Prop where
  above : ∀ n, log.get? n ≠ none → purged = none ∨ indexOr0 purged < n
  gapFree : log.GapFree (indexOr0 purged + 1)

/-- The log has the applied entries that are not purged. -/
def Intact (log : OrdMap Nat (Entry P)) (applied : AppliedState M) : Prop :=
  ∀ id, applied.lastApplied = some id → id.index.toNat ≤ indexOr0 applied.lastPurged ∨
    (∀ n, indexOr0 applied.lastPurged < n → n ≤ id.index.toNat → log.get? n ≠ none) ∧
      (log.get? id.index.toNat).map (·.logId) = some id

variable {log : OrdMap Nat (Entry P)} {applied : AppliedState M}

theorem present_iff {purged last : Nat} :
    (log.range (purged + 1) (last + 1)).length = last - purged ↔
      ∀ n, purged < n → n ≤ last → log.get? n ≠ none := by
  have hlen : last - purged = last + 1 - (purged + 1) := by omega
  rw [hlen, OrdMap.length_range_eq_iff]
  exact forall_congr' fun n => imp_congr_right fun _ => by rw [Nat.lt_succ_iff]

theorem reconcileTornRecovery_of_intact (h : Intact log applied) :
    reconcileTornRecovery log applied = (false, log, applied) := by
  rw [reconcileTornRecovery]
  split
  · rfl
  next id hid =>
    dsimp only
    split
    · rfl
    next hne =>
      refine if_pos ?_
      rcases h id hid with hle | ⟨hall, hlast⟩
      · exact absurd (Nat.sub_eq_zero_of_le hle) hne
      · exact ⟨present_iff.mpr hall, hlast⟩

theorem reconcileTornRecovery_of_torn (h : ¬ Intact log applied) :
    ∃ id, applied.lastApplied = some id ∧ indexOr0 applied.lastPurged < id.index.toNat ∧
      reconcileTornRecovery log applied =
        (true, log.dropBelow (id.index.toNat + 1), { applied with lastPurged := some id }) := by
  unfold Intact at h
  push Not at h
  obtain ⟨id, hid, hlt, htorn⟩ := h
  refine ⟨id, hid, hlt, ?_⟩
  rw [reconcileTornRecovery, hid]
  dsimp only
  rw [if_neg (Nat.sub_ne_zero_of_lt hlt), if_neg]
  · rfl
  · rintro ⟨hpresent, hlast⟩
    exact htorn (present_iff.mp hpresent) hlast

namespace NodusRaftStore

def appliedState (st : NodusRaftStore P M) : AppliedState M :=
  ⟨st.lastApplied, st.lastMembership, st.lastPurged⟩

variable [Inhabited M]

def InSync (st : NodusRaftStore P M) : Prop := Stores st.metaStore st.log st.appliedState

def blank : NodusRaftStore P M := ⟨.new .empty, none, .empty, none, default, none⟩

variable {s : RaftMetaStore P M} {st : NodusRaftStore P M}

theorem withKv_spec (h : Stores s log applied) (txnId : TxnId) (wall : UInt64) :
    ∃ st, withKv s.kv txnId wall = .ok st ∧
      st.log = (reconcileTornRecovery log applied).2.1 ∧
      st.lastPurged = (reconcileTornRecovery log applied).2.2.lastPurged := by
  obtain ⟨vote, hvote⟩ := RaftMetaStore.exists_loadVote h.new.keyed
  rw [withKv, h.new.loadLog, hvote, h.new.loadApplied]
  exact ⟨_, rfl, rfl, rfl⟩

theorem withKv_of_intact (h : Stores s log applied) (hintact : Intact log applied) (txnId : TxnId)
    (wall : UInt64) :
    ∃ vote, withKv s.kv txnId wall = .ok ⟨.new s.kv, vote, log, applied.lastApplied,
      applied.lastMembership, applied.lastPurged⟩ := by
  obtain ⟨vote, hvote⟩ := RaftMetaStore.exists_loadVote h.new.keyed
  rw [withKv, h.new.loadLog, hvote, h.new.loadApplied]
  exact ⟨vote, by simp only [bind, Except.bind, reconcileTornRecovery_of_intact hintact]; rfl⟩

theorem inSync_blank : (blank : NodusRaftStore P M).InSync :=
  .of_load RaftMetaStore.clean_empty RaftMetaStore.keyed_empty rfl rfl

theorem InSync.index_eq (h : st.InSync) {n : Nat} {e : Entry P} (hget : st.log.get? n = some e) :
    e.index = n :=
  Stores.index_eq h hget

theorem InSync.appendToLog (h : st.InSync) (txnId : TxnId) (wall : UInt64)
    (entries : List (Entry P))
    (habove : ∀ e ∈ entries, st.metaStore.Above wall (logKey e.logId.index)) :
    ∃ store, st.appendToLog entries txnId wall =
        .ok { st with metaStore := store, log := insertAll st.log entries } ∧
      InSync { st with metaStore := store, log := insertAll st.log entries } := by
  obtain ⟨store, happend, hstore⟩ := Stores.appendEntries h txnId entries habove
  refine ⟨store, ?_, hstore⟩
  rw [NodusRaftStore.appendToLog, happend]
  rfl

end NodusRaftStore

end NodusDb.Raft
