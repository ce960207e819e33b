import NodusDb.Raft.Authority

/-!
# The resolution queue

A decision with participants goes into a queue, in the same write as the
decision: a progress record, a row with the log index, and the highest index in
the queue. Participants acknowledge the decision; with the last one the
progress is complete and the row goes.
-/

namespace NodusDb.Raft

open Result

namespace Resolution

def maxRecordBytes : Nat := 256 * 1024

inductive CommandV1
  | acknowledge (txnId : Uuid) (decision : Authority.TokenV1) (group : Bytes)
  | advance (expectedRevision : UInt64) (after : UInt64) (through : UInt64)
  deriving DecidableEq

/-! ## Reads -/

/-- A record of the queue, of the kind that `select` picks. -/
def decode {α : Type} (select : Value → Option α) (value : Value) : Result α := do
  ensure ((encode value).length ≤ maxRecordBytes) "resolution record too large"
  required (select value) "unsupported resolution record envelope"

def selectProgress : Value → Option ProgressV1
  | .progress p => some p
  | _ => none

def selectHighWater : Value → Option UInt64
  | .highWater n => some n
  | _ => none

def selectCursor : Value → Option CursorV1
  | .cursor c => some c
  | _ => none

def readWith {α : Type} (select : Value → Option α) (kv : Kv) (key : Bytes) : Result (Option α) :=
  match lookup kv key with
  | none => .ok none
  | some value => (decode select value).map some

/-- The highest index in the queue, zero if there was none. -/
def highWater (kv : Kv) : Result UInt64 :=
  (readWith selectHighWater kv highWaterKey).map (·.getD 0)

def cursor (kv : Kv) : Result CursorV1 := do
  let c := (← readWith selectCursor kv cursorKey).getD ⟨0, 0, 0⟩
  let high ← highWater kv
  ensure (c.after ≤ c.through ∧ c.through ≤ high) "invalid resolution cursor"
  pure c

def validateProgress (p : ProgressV1) (record : Authority.RecordV1) : Result Unit := do
  ensure (p.txnId = record.txnId ∧ p.decision = record.token ∧ record.phase.terminal)
    "resolution decision mismatch"
  ensure (0 < p.index ∧ (∀ g ∈ p.acknowledged.keys, record.participants.contains g) ∧
      (p.complete ∨ p.acknowledged.size < record.participants.size) ∧
      (!p.complete ∨ p.acknowledged.size = 0)) "invalid participant acknowledgements"

def progress (kv : Kv) (txn : Uuid) : Result (Option ProgressV1) := do
  match ← readWith selectProgress kv (progressKey txn) with
  | none => pure none
  | some p =>
    ensure (p.txnId = txn ∧ 0 < p.index ∧ (!p.complete ∨ p.acknowledged.size = 0))
      "invalid resolution progress"
    let high ← highWater kv
    ensure (p.index ≤ high) "resolution progress exceeds high water"
    let record ← required (← Authority.read kv txn) "resolution authority missing"
    validateProgress p record
    pure (some p)

/-! ## Commands -/

/-- The writes that put a decision into the queue. -/
def enqueueWrites (record : Authority.RecordV1) (index : UInt64) : List (IntentOperation Value) :=
  [.put (progressKey record.txnId) (.progress ⟨record.txnId, index, record.token, .empty, false⟩),
    .put (pendingKey index record.txnId) (.txn record.txnId),
    .put highWaterKey (.highWater index)]

def enqueue (kv : Kv) (record : Authority.RecordV1) (txn : TxnId) (index : UInt64) : Result Kv :=
  if record.participants.size = 0 then pure kv
  else do
    let high ← highWater kv
    ensure (high < index) "resolution high water would regress"
    ensure (lookup kv (progressKey record.txnId) = none) "resolution identity reused"
    (enqueueWrites record index).foldlM (fun kv op => putIntent kv txn op) kv

end Resolution

namespace Authority

/-- Store the next record and, once it is decided, queue it. -/
def publish [Hashes] (kv : Kv) (next : RecordV1) (txnId : Uuid) (index : UInt64) :
    Result Kv := do
  ensure ((encode next).length ≤ maxRecordBytes) "transaction authority record too large"
  let writeId := writeId (key txnId) index
  let kv ← putIntent (kv.abort writeId) writeId (.put (key txnId) (.authority next))
  let kv ← (if next.phase.terminal then Resolution.enqueue kv next writeId index else pure kv)
  pure (kv.commit writeId index.toNat)

def apply [Hashes] (kv : Kv) (cmd : CommandV1) (index : UInt64) : Result (Kv × ShardResponse) := do
  let old ← read kv cmd.txnId
  match transition old cmd with
  | .error error => pure (kv, reject error)
  | .ok next =>
    if old = some next then pure (kv, accepted)
    else
      let kv ← publish kv next cmd.txnId index
      pure (kv, accepted)

end Authority

namespace Resolution

/-- The progress with one more acknowledgement. With the last one it is
complete and forgets who acknowledged. -/
def ProgressV1.acknowledge (p : ProgressV1) (group : Bytes) (participants : Nat) : ProgressV1 :=
  let acknowledged := p.acknowledged.insert group ()
  if acknowledged.size = participants then { p with acknowledged := .empty, complete := true }
  else { p with acknowledged := acknowledged }

def ackWrites (p : ProgressV1) : List (IntentOperation Value) :=
  (if p.complete then [.delete (pendingKey p.index p.txnId)] else []) ++
    [.put (progressKey p.txnId) (.progress p)]

/-- What a command writes, or its response when it writes nothing. -/
def outcome (kv : Kv) (cmd : CommandV1) (index : UInt64) :
    Result (Except ShardResponse (List (IntentOperation Value))) := do
  match cmd with
  | .acknowledge txnId decision group =>
    match ← Authority.read kv txnId with
    | none => pure (.error (reject "resolution authority missing"))
    | some record =>
      if record.token ≠ decision ∨ !record.participants.contains group ∨
          !record.phase.terminal then
        pure (.error (reject "resolution acknowledgement has no matching terminal decision"))
      else
        match ← progress kv txnId with
        | none => pure (.error accepted)
        | some p =>
          if p.complete ∨ p.acknowledged.contains group then pure (.error accepted)
          else pure (.ok (ackWrites (p.acknowledge group record.participants.size)))
  | .advance expectedRevision after through =>
    let old ← cursor kv
    if index ≤ old.revision then pure (.error accepted)
    else if old.revision ≠ expectedRevision then
      pure (.error (reject "stale resolution cursor"))
    else if through < after ∨ (← highWater kv) < through then
      pure (.error (reject "invalid resolution cursor bound"))
    else pure (.ok [.put cursorKey (.cursor ⟨index, after, through⟩)])

def apply [Hashes] (kv : Kv) (cmd : CommandV1) (index : UInt64) : Result (Kv × ShardResponse) := do
  let txn := writeId keyPrefix index
  let kv := kv.abort txn
  match ← outcome kv cmd index with
  | .error response => pure (kv, response)
  | .ok writes =>
    let kv ← writes.foldlM (fun kv op => putIntent kv txn op) kv
    pure (kv.commit txn index.toNat, accepted)

end Resolution

/-! ## What the commands write -/

variable {kv kv' : Kv} {txn : TxnId} {index : UInt64} {j : Bytes}

theorem lookup_eq_of_commits (h : kv.WF) (h' : kv'.WF)
    (hc : (kv'.view j).commits = (kv.view j).commits) : lookup kv' j = lookup kv j :=
  MemKvEngine.get_eq_of_commits h' h hc

theorem lookup_replayIntent (h : kv.WF) {key : Bytes} :
    lookup (kv.replayIntent txn key v 0) j = lookup kv j := by
  refine lookup_eq_of_commits h h.replayIntent ?_
  rw [Table.view_replayIntent h]
  split
  next heq => rw [KeyState.commits_write, heq]
  · rfl

theorem lookup_abort (h : kv.WF) : lookup (kv.abort txn) j = lookup kv j := by
  refine lookup_eq_of_commits h h.abort ?_
  rw [Table.view_abort h, KeyState.commits_abort]

namespace Resolution

theorem readWith_congr {key : Bytes} (h : lookup kv' key = lookup kv key) :
    readWith select kv' key = readWith select kv key := by
  rw [readWith, h, readWith]

theorem highWater_congr (h : lookup kv' highWaterKey = lookup kv highWaterKey) :
    highWater kv' = highWater kv := by
  rw [highWater, readWith_congr h, highWater]

/-- The writes of a decision's own transaction beside the decision. -/
def queued (record : Authority.RecordV1) (index : UInt64) : List (IntentOperation Value) :=
  if record.phase.terminal ∧ record.participants.size ≠ 0 then enqueueWrites record index else []

theorem keyPrefix_of_queued {record : Authority.RecordV1} (hop : op ∈ queued record index) :
    keyPrefix <+: op.key := by
  unfold queued at hop
  split at hop
  · simp only [enqueueWrites, List.mem_cons, List.not_mem_nil, or_false] at hop
    rcases hop with rfl | rfl | rfl
    · exact prefix_progressKey _
    · exact prefix_pendingKey _ _
    · exact ⟨ascii "v1/high-water", rfl⟩
  · cases hop

end Resolution

namespace Authority

open Resolution (queued enqueueWrites enqueue highWater highWater_congr progressKey)

variable [Hashes] {next : RecordV1} {txnId : Uuid}

theorem publish_ok (h : kv.WF) (hp : publish kv next txnId index = .ok kv') :
    (encode next).length ≤ maxRecordBytes ∧
    Published kv kv' (writeId (key txnId) index)
      (.put (key txnId) (.authority next) :: queued next index) index.toNat ∧
    (queued next index ≠ [] →
      (∃ high, highWater kv = .ok high ∧ high < index) ∧
        lookup kv (progressKey next.txnId) = none) := by
  have habort : Published kv (kv.abort (writeId (key txnId) index)) (writeId (key txnId) index) []
      index.toNat := .abort h
  simp only [publish, bind_eq_ok] at hp
  obtain ⟨_, hsize, kv₁, hput, kv₂, hqueue, hp⟩ := hp
  cases hp
  refine ⟨ensure_eq_ok.mp hsize, ?_⟩
  have hlookup : ∀ j, lookup kv₁ j = lookup kv j := by
    intro j
    rw [(putIntent_ok h.abort hput).2]
    exact (lookup_replayIntent h.abort).trans (lookup_abort h)
  -- The records go into the same transaction, one after the other.
  suffices hall : (queued next index).foldlM
      (fun kv op => putIntent kv (writeId (key txnId) index) op) kv₁ = .ok kv₂ ∧
      (queued next index ≠ [] → (∃ high, highWater kv = .ok high ∧ high < index) ∧
        lookup kv (progressKey next.txnId) = none) by
    refine ⟨habort.trans (published_of_foldlM h.abort habort.idle ?_), hall.2⟩
    rw [List.foldlM_cons, hput]
    exact hall.1
  unfold queued
  split at hqueue
  next hterm =>
    unfold enqueue at hqueue
    split at hqueue
    next hempty =>
      cases hqueue
      rw [if_neg fun hc => hc.2 hempty]
      exact ⟨rfl, fun hne => absurd rfl hne⟩
    next hne =>
    simp only [bind_eq_ok, ensure_eq_ok] at hqueue
    obtain ⟨high, hhigh, _, hlt, _, hnone, hfold⟩ := hqueue
    rw [if_pos ⟨hterm, hne⟩]
    refine ⟨hfold, fun _ => ⟨⟨high, ?_, hlt⟩, ?_⟩⟩
    · rwa [highWater_congr (hlookup _)] at hhigh
    · rwa [hlookup] at hnone
  next hterm =>
    cases hqueue
    rw [if_neg fun hc => hterm hc.1]
    exact ⟨rfl, fun hne => absurd rfl hne⟩

theorem apply_cases (ha : apply kv cmd index = .ok (kv', response)) :
    ∃ old, read kv cmd.txnId = .ok old ∧
      ((∃ error, transition old cmd = .error error ∧ kv' = kv ∧ response = reject error) ∨
        ∃ next, transition old cmd = .ok next ∧ response = accepted ∧
          ((old = some next ∧ kv' = kv) ∨
            (old ≠ some next ∧ publish kv next cmd.txnId index = .ok kv'))) := by
  simp only [apply, bind_eq_ok] at ha
  obtain ⟨old, hold, ha⟩ := ha
  refine ⟨old, hold, ?_⟩
  split at ha
  next error he =>
    cases ha
    exact .inl ⟨error, he, rfl, rfl⟩
  next next hn =>
  refine .inr ⟨next, hn, ?_⟩
  split at ha
  next heq =>
    cases ha
    exact ⟨rfl, .inl ⟨heq, rfl⟩⟩
  next hne =>
  obtain ⟨kv₁, hpub, ha⟩ := bind_eq_ok.mp ha
  cases ha
  exact ⟨rfl, .inr ⟨hne, hpub⟩⟩

end Authority

namespace Resolution

theorem outcome_writes (ho : outcome kv cmd index = .ok (.ok writes)) :
    (∃ txnId decision group record p, cmd = .acknowledge txnId decision group ∧
      Authority.read kv txnId = .ok (some record) ∧ record.token = decision ∧
      record.participants.contains group = true ∧ record.phase.terminal = true ∧
      progress kv txnId = .ok (some p) ∧ p.complete = false ∧
      p.acknowledged.contains group = false ∧
      writes = ackWrites (p.acknowledge group record.participants.size)) ∨
    (∃ expectedRevision after through old high, cmd = .advance expectedRevision after through ∧
      cursor kv = .ok old ∧ old.revision < index ∧ highWater kv = .ok high ∧ after ≤ through ∧
      through ≤ high ∧ writes = [.put cursorKey (.cursor ⟨index, after, through⟩)]) := by
  cases cmd with
  | acknowledge txnId decision group =>
    left
    simp only [outcome, bind_eq_ok] at ho
    obtain ⟨read, hread, ho⟩ := ho
    split at ho
    · cases ho
    next record =>
    split at ho
    · cases ho
    next hmatch =>
    simp only [not_or, not_not, Bool.not_eq_true] at hmatch
    obtain ⟨found, hprogress, ho⟩ := bind_eq_ok.mp ho
    split at ho
    · cases ho
    next p =>
    split at ho
    · cases ho
    next hopen =>
    simp only [not_or, Bool.not_eq_true] at hopen
    cases ho
    refine ⟨txnId, decision, group, record, p, rfl, hread, hmatch.1, ?_, ?_, hprogress, hopen.1,
      hopen.2, rfl⟩
    · simpa using hmatch.2.1
    · simpa using hmatch.2.2
  | advance expectedRevision after through =>
    right
    simp only [outcome, bind_eq_ok] at ho
    obtain ⟨old, hold, ho⟩ := ho
    split at ho
    · cases ho
    next hnew =>
    split at ho
    · cases ho
    obtain ⟨high, hhigh, ho⟩ := bind_eq_ok.mp ho
    split at ho
    · cases ho
    next hbound =>
    rw [not_or, UInt64.not_lt, UInt64.not_lt] at hbound
    cases ho
    exact ⟨expectedRevision, after, through, old, high, rfl, hold, UInt64.not_le.mp hnew, hhigh,
      hbound.1, hbound.2, rfl⟩

variable [Hashes]

theorem apply_cases (h : kv.WF) (ha : apply kv cmd index = .ok (kv', response)) :
    ∃ kv₁, Published kv kv₁ (writeId keyPrefix index) [] index.toNat ∧
      ((outcome kv₁ cmd index = .ok (.error response) ∧ kv' = kv₁) ∨
        ∃ writes, outcome kv₁ cmd index = .ok (.ok writes) ∧ response = accepted ∧
          Published kv₁ kv' (writeId keyPrefix index) writes index.toNat) := by
  have habort : Published kv (kv.abort (writeId keyPrefix index)) (writeId keyPrefix index) []
      index.toNat := .abort h
  refine ⟨_, habort, ?_⟩
  simp only [apply, bind_eq_ok] at ha
  obtain ⟨o, ho, ha⟩ := ha
  split at ha
  next r =>
    cases ha
    exact .inl ⟨ho, rfl⟩
  next writes =>
  obtain ⟨kv₂, hfold, ha⟩ := bind_eq_ok.mp ha
  cases ha
  exact .inr ⟨writes, ho, rfl, published_of_foldlM h.abort habort.idle hfold⟩

end Resolution

end NodusDb.Raft
