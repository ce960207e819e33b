import NodusDb.Raft.Fence

/-!
# Epoch writes

Writes of user data that carry the epoch of the group they were routed to. A
group rejects them unless it is in that epoch and open.
-/

namespace NodusDb.Raft.Migration

inductive EpochMutationV1
  | put (txn : Uuid) (key value : Bytes)
  | delete (txn : Uuid) (key : Bytes)
  | prepare (txn : Uuid)
  | commit (txn : Uuid) (commitTs : UInt64)
  deriving DecidableEq, Repr

def EpochMutationV1.txn : EpochMutationV1 → Uuid
  | put txn _ _ | delete txn _ | prepare txn | commit txn _ => txn

abbrev EpochIntentOperationV1 := IntentOperation Bytes

/-- The write of user data that an operation asks for. -/
def EpochIntentOperationV1.toIntent : EpochIntentOperationV1 → IntentOperation Value
  | .put key value => .put key (.data value)
  | .delete key => .delete key

@[simp] theorem EpochIntentOperationV1.key_toIntent (op : EpochIntentOperationV1) :
    (toIntent op).key = op.key := by
  cases op <;> rfl

abbrev ReplacementV2 := IntentReplacement Bytes

def ReplacementV2.toIntent : ReplacementV2 → IntentReplacement Value
  | .put value => .put (.data value)
  | .delete => .delete
  | .clear => .clear

structure EpochCommitV1 where
  txn : Uuid
  commitTs : UInt64
  deriving DecidableEq, Repr

def maxBatchItems : Nat := 256
def maxBatchPayloadBytes : Nat := 1024 * 1024
def commitPayloadBytes : Nat := 16 + 8

def payloadBytes : EpochIntentOperationV1 → Nat
  | .put key value => key.length + value.length
  | .delete key => key.length

def invalidWriteBatch (operations : List EpochIntentOperationV1) : Option String :=
  if operations = [] then some "write batch must not be empty"
  else if maxBatchItems < operations.length then some "write batch exceeds 256 operations"
  else if maxBatchPayloadBytes < (operations.map payloadBytes).sum then
    some "write batch exceeds 1 MiB payload"
  else none

def invalidCommitBatch (commits : List EpochCommitV1) : Option String :=
  if commits = [] then some "commit batch must not be empty"
  else if maxBatchItems < commits.length then some "commit batch exceeds 256 commits"
  else if maxBatchPayloadBytes < commits.length * commitPayloadBytes then
    some "commit batch exceeds 1 MiB payload"
  else none

/-! ## Applying -/

/-- A mutation's result as a response: a conflict is a rejection. -/
def respond (kv : Kv) (conflict : ShardResponse) : Except KvError Kv → Result (Kv × ShardResponse)
  | .ok kv' => .ok (kv', accepted)
  | .error (.writeConflict _) => .ok (kv, conflict)
  | .error (.intentNotFound _) => .error "intent not found"

def applyWriteBatch (kv : Kv) (epoch : UInt64) (txn : Uuid)
    (operations : List EpochIntentOperationV1) : Result (Kv × ShardResponse) := do
  if ¬ EpochIsOpen (← readFence kv) epoch then
    pure (kv, reject "stale epoch or fenced participant; retry transaction")
  else
    match invalidWriteBatch operations with
    | some reason => pure (kv, reject reason)
    | none =>
      if operations.any fun op => isControlKey op.key then pure (kv, reject "reserved migration key")
      else
        respond kv (reject "write conflict; retry transaction")
          (kv.writeIntentBatch txn (operations.map EpochIntentOperationV1.toIntent) 0)

/-- A commit of a transaction without intents is a replay and is accepted. -/
def applyCommitBatch (kv : Kv) (epoch : UInt64) (commits : List EpochCommitV1) :
    Result (Kv × ShardResponse) := do
  if ¬ EpochIsOpen (← readFence kv) epoch then
    pure (kv, reject "stale epoch or fenced participant; retry transaction")
  else
    match invalidCommitBatch commits with
    | some reason => pure (kv, reject reason)
    | none => pure (kv.commitBatch (commits.map fun c => (c.txn, c.commitTs.toNat)), accepted)

def applyRepair (kv : Kv) (epoch : UInt64) (txn : Uuid) (key : Bytes)
    (replacement : ReplacementV2) : Result (Kv × ShardResponse) := do
  if ¬ EpochIsOpen (← readFence kv) epoch then
    pure (kv, reject "stale savepoint epoch; retry transaction")
  else if isControlKey key then pure (kv, reject "reserved migration key")
  else
    match kv.replaceIntent txn key replacement.toIntent 0 with
    | (kv', .ok ()) => pure (kv', accepted)
    | (kv', .error (.writeConflict _)) => pure (kv', reject "savepoint write conflict")
    | (_, .error (.intentNotFound _)) => .error "intent not found"

/-- One write or deletion by a client, on a key that is not reserved. -/
def applyIntent (kv : Kv) (txn : Uuid) (op : EpochIntentOperationV1) :
    Result (Kv × ShardResponse) :=
  if isControlKey op.key then pure (kv, reject "reserved migration key")
  else
    respond kv (reject "write conflict; retry transaction")
      (kv.writeIntentImpl txn op.key op.toIntent.value 0)

def applyEpochWrite (kv : Kv) (epoch : UInt64) (mutation : EpochMutationV1) :
    Result (Kv × ShardResponse) := do
  if ¬ EpochIsOpen (← readFence kv) epoch then
    pure (kv, reject "stale epoch or fenced participant; retry transaction")
  else
    match mutation with
    | .put txn key value => applyIntent kv txn (.put key value)
    | .delete txn key => applyIntent kv txn (.delete key)
    | .prepare txn =>
      if kv.keysOf txn = [] then pure (kv, reject "no live participant intents")
      else pure (kv, accepted)
    | .commit txn commitTs => pure (kv.commit txn commitTs.toNat, accepted)

def applyEpochPrepare (kv : Kv) (epoch : UInt64) (txn : Uuid) (expectIntents : Bool) :
    Result (Kv × ShardResponse) := do
  if EpochIsOpen (← readFence kv) epoch ∧ decide (kv.keysOf txn ≠ []) = expectIntents then
    pure (kv, accepted)
  else pure (kv, reject "stale epoch or unexpected participant intents")

/-! ## What the writes do -/

/-- The group is in the epoch and not closed. -/
def Open (kv : Kv) (epoch : UInt64) : Prop :=
  ∃ fence, readFence kv = .ok fence ∧ EpochIsOpen fence epoch

theorem Open.published (h : kv.WF) (ho : Open kv epoch) (hpub : Published kv kv' txn ops ts)
    (hw : written fenceKey ops = none) : Open kv' epoch := by
  obtain ⟨fence, hfence, ho⟩ := ho
  refine ⟨fence, ?_, ho⟩
  rw [readFence, hpub.lookup_of_none h hw]
  exact hfence

theorem view_replayAll_of_ne {kv : Kv} {txn : TxnId} (ops : List EpochIntentOperationV1)
    (h : kv.WF) (hj : ∀ op ∈ ops, op.key ≠ j) :
    (kv.replayAll txn (ops.map EpochIntentOperationV1.toIntent) 0).view j = kv.view j := by
  have hw : written j (ops.map EpochIntentOperationV1.toIntent) = none := by
    refine written_eq_none.mpr fun op hop => ?_
    obtain ⟨o, ho, rfl⟩ := List.mem_map.mp hop
    rw [EpochIntentOperationV1.key_toIntent]
    exact hj o ho
  rw [Table.view_replayAll h, hw]

section Cases

variable {kv kv' : Kv} {epoch : UInt64} {txn : Uuid} {operations : List EpochIntentOperationV1}
  {commits : List EpochCommitV1} {key : Bytes} {replacement : ReplacementV2}
  {mutation : EpochMutationV1} {response : ShardResponse}

theorem respond_writeIntentBatch (h : kv.WF)
    (ha : respond kv conflict (kv.writeIntentBatch txn ops 0) = .ok (kv', response)) :
    (kv' = kv ∧ response = conflict ∧ ∃ op ∈ ops, (kv.view op.key).blocks txn) ∨
    (kv' = kv.replayAll txn ops 0 ∧ response = accepted ∧
      ∀ op ∈ ops, ¬ (kv.view op.key).blocks txn) := by
  by_cases hb : ∃ op ∈ ops, (kv.view op.key).blocks txn
  · rw [Table.writeIntentBatch_of_blocks h hb] at ha
    cases ha
    exact .inl ⟨rfl, rfl, hb⟩
  have hfree : ∀ op ∈ ops, ¬ (kv.view op.key).blocks txn := fun op hop hbl => hb ⟨op, hop, hbl⟩
  rw [Table.writeIntentBatch_of_not_blocks h hfree] at ha
  cases ha
  exact .inr ⟨rfl, rfl, hfree⟩

theorem applyWriteBatch_cases (h : kv.WF)
    (ha : applyWriteBatch kv epoch txn operations = .ok (kv', response)) :
    (kv' = kv ∧ response.success = false) ∨
    (response = accepted ∧ Open kv epoch ∧ (∀ op ∈ operations, isControlKey op.key = false) ∧
      (∀ op ∈ operations, ¬ (kv.view op.key).blocks txn) ∧
      kv' = kv.replayAll txn (operations.map EpochIntentOperationV1.toIntent) 0) := by
  simp only [applyWriteBatch, Result.bind_eq_ok] at ha
  obtain ⟨fence, hfence, ha⟩ := ha
  split at ha
  · cases ha
    exact .inl ⟨rfl, rfl⟩
  next hopen =>
  split at ha
  · cases ha
    exact .inl ⟨rfl, rfl⟩
  split at ha
  · cases ha
    exact .inl ⟨rfl, rfl⟩
  next hkeys =>
  rcases respond_writeIntentBatch h ha with ⟨rfl, rfl, -⟩ | ⟨rfl, rfl, hfree⟩
  · exact .inl ⟨rfl, rfl⟩
  refine .inr ⟨rfl, ⟨fence, hfence, not_not.mp hopen⟩, fun op hop => ?_, fun op hop => ?_, rfl⟩
  · refine Bool.eq_false_of_not_eq_true fun hc => hkeys ?_
    exact List.any_eq_true.mpr ⟨op, hop, hc⟩
  · have := hfree _ (List.mem_map_of_mem hop)
    rwa [EpochIntentOperationV1.key_toIntent] at this

theorem applyCommitBatch_cases (ha : applyCommitBatch kv epoch commits = .ok (kv', response)) :
    (kv' = kv ∧ response.success = false) ∨
    (response = accepted ∧ Open kv epoch ∧
      kv' = kv.commitBatch (commits.map fun c => (c.txn, c.commitTs.toNat))) := by
  simp only [applyCommitBatch, Result.bind_eq_ok] at ha
  obtain ⟨fence, hfence, ha⟩ := ha
  split at ha
  · cases ha
    exact .inl ⟨rfl, rfl⟩
  next hopen =>
  split at ha
  · cases ha
    exact .inl ⟨rfl, rfl⟩
  · cases ha
    exact .inr ⟨rfl, ⟨fence, hfence, not_not.mp hopen⟩, rfl⟩

theorem applyRepair_cases (ha : applyRepair kv epoch txn key replacement = .ok (kv', response)) :
    (kv' = kv ∧ response.success = false) ∨
    ((response = accepted ∨ response.success = false) ∧ Open kv epoch ∧ isControlKey key = false ∧
      kv' = (kv.replaceIntent txn key replacement.toIntent 0).1) := by
  simp only [applyRepair, Result.bind_eq_ok] at ha
  obtain ⟨fence, hfence, ha⟩ := ha
  split at ha
  · cases ha
    exact .inl ⟨rfl, rfl⟩
  next hopen =>
  split at ha
  · cases ha
    exact .inl ⟨rfl, rfl⟩
  next hkey =>
  have hkey' : isControlKey key = false := Bool.eq_false_of_not_eq_true hkey
  split at ha
  next kv₁ hr =>
    cases ha
    exact .inr ⟨.inl rfl, ⟨fence, hfence, not_not.mp hopen⟩, hkey', by rw [hr]⟩
  next kv₁ o hr =>
    cases ha
    exact .inr ⟨.inr rfl, ⟨fence, hfence, not_not.mp hopen⟩, hkey', by rw [hr]⟩
  · cases ha

theorem respond_writeIntentImpl (h : kv.WF) {op : EpochIntentOperationV1} {conflict : ShardResponse}
    (ha : respond kv conflict (kv.writeIntentImpl txn op.key op.toIntent.value 0) =
      .ok (kv', response)) :
    (kv' = kv ∧ response = conflict ∧ (kv.view op.key).blocks txn) ∨
    (kv' = kv.replayAll txn [op.toIntent] 0 ∧ response = accepted ∧
      ¬ (kv.view op.key).blocks txn) := by
  by_cases hb : (kv.view op.key).blocks txn
  · obtain ⟨o, -, hw⟩ : ∃ o, (kv.view op.key).owner = some o ∧
        kv.writeIntentImpl txn op.key op.toIntent.value 0 = .error (.writeConflict o) :=
      Table.writeIntentImpl_of_blocks h hb
    rw [hw] at ha
    cases ha
    exact .inl ⟨rfl, rfl, hb⟩
  · rw [Table.writeIntentImpl_eq_replay h hb] at ha
    cases ha
    refine .inr ⟨?_, rfl, hb⟩
    rw [Table.replayAll, List.foldl_cons, List.foldl_nil, EpochIntentOperationV1.key_toIntent]

theorem applyIntent_cases (h : kv.WF) (ha : applyIntent kv txn op = .ok (kv', response)) :
    (kv' = kv ∧ response.success = false) ∨
    (response = accepted ∧ isControlKey op.key = false ∧ ¬ (kv.view op.key).blocks txn ∧
      kv' = kv.replayAll txn [op.toIntent] 0) := by
  unfold applyIntent at ha
  split at ha
  · cases ha
    exact .inl ⟨rfl, rfl⟩
  next hkey =>
  rcases respond_writeIntentImpl h ha with ⟨rfl, rfl, -⟩ | ⟨rfl, rfl, hb⟩
  · exact .inl ⟨rfl, rfl⟩
  · exact .inr ⟨rfl, Bool.eq_false_of_not_eq_true hkey, hb, rfl⟩

theorem applyEpochWrite_cases (h : kv.WF)
    (ha : applyEpochWrite kv epoch mutation = .ok (kv', response)) :
    (kv' = kv ∧ (response.success = false ∨ Open kv epoch)) ∨
    (response = accepted ∧ Open kv epoch ∧
      ((∃ op, isControlKey op.key = false ∧ ¬ (kv.view op.key).blocks mutation.txn ∧
          kv' = kv.replayAll mutation.txn [EpochIntentOperationV1.toIntent op] 0) ∨
        ∃ commitTs : UInt64, kv' = kv.commit mutation.txn commitTs.toNat)) := by
  simp only [applyEpochWrite, Result.bind_eq_ok] at ha
  obtain ⟨fence, hfence, ha⟩ := ha
  split at ha
  · cases ha
    exact .inl ⟨rfl, .inl rfl⟩
  next hopen =>
  have hopen' : Open kv epoch := ⟨fence, hfence, not_not.mp hopen⟩
  cases mutation with
  | put u k v | delete u k =>
    rcases applyIntent_cases h ha with ⟨rfl, hr⟩ | ⟨hr, hkey, hb, hkv⟩
    · exact .inl ⟨rfl, .inl hr⟩
    · exact .inr ⟨hr, hopen', .inl ⟨_, hkey, hb, hkv⟩⟩
  | prepare u =>
    simp only at ha
    split at ha
    all_goals
      cases ha
      exact .inl ⟨rfl, .inr hopen'⟩
  | commit u ts =>
    cases ha
    exact .inr ⟨rfl, hopen', .inr ⟨ts, rfl⟩⟩

theorem applyEpochPrepare_cases
    (ha : applyEpochPrepare kv epoch txn expectIntents = .ok (kv', response)) :
    kv' = kv ∧ (response.success = false ∨ Open kv epoch) := by
  simp only [applyEpochPrepare, Result.bind_eq_ok] at ha
  obtain ⟨fence, hfence, ha⟩ := ha
  split at ha
  next hopen =>
    cases ha
    exact ⟨rfl, .inr ⟨fence, hfence, hopen.1⟩⟩
  · cases ha
    exact ⟨rfl, .inl rfl⟩

end Cases

end NodusDb.Raft.Migration
