import NodusDb.Raft.JournalReads

/-!
# The migration fence

A group that takes part in a migration has a fence: the epoch it is in and whether it is closed. A
migration closes it when nothing is pending (`acquire_spec`) and opens it again (`release_save`); a
cancelled one advances the epoch of a group it never reached (`cancelParticipant_spec`). The
commands of the first journal are here as well.
-/

namespace NodusDb.Raft

open Result

namespace Participant

def maxRecordBytes : Nat := 4096

def validate (record : RecordV1) : Result Unit := do
  ensure (!record.txnId.isNil ∧ !record.owner.incarnation.isNil) "nil participant identity"
  ensure (0 < record.generation) "zero participant generation"
  ensure (record.generation = 1 ∨ record.phase = .aborted) "invalid participant generation"
  match record.phase with
  | .committed commitTs => ensure (0 < commitTs) "zero participant commit timestamp"
  | _ => pure ()

def decode : Value → Result RecordV1
  | .participant record => do
    ensure ((encode record).length ≤ maxRecordBytes) "participant record too large"
    validate record
    pure record
  | _ => .error "unsupported participant record envelope"

def read (kv : Kv) (txn : Uuid) : Result (Option RecordV1) :=
  match lookup kv (key txn) with
  | none => .ok none
  | some value => do
    let record ← decode value
    ensure (record.txnId = txn) "participant key/ID mismatch"
    pure (some record)

/-- Whether one of the rows is of an undecided transaction. -/
def anyUnresolved : List (KvPair Value) → Result Bool
  | [] => pure false
  | row :: rows => do
    let record ← decode row.value
    ensure (key record.txnId = row.key) "participant key/ID mismatch"
    if record.phase.terminal then anyUnresolved rows else pure true

def hasUnresolved (kv : Kv) : Result Bool := do
  anyUnresolved (← Migration.rows kv keyPrefix keyEnd)

end Participant

/-! ## The fence -/

namespace Migration

def reject (reason : String) : ShardResponse := Raft.reject ("shard routing changed: " ++ reason)

def readFence (kv : Kv) : Result (Option ParticipantFence) :=
  match lookup kv fenceKey with
  | none => .ok none
  | some (.fence fence) => .ok (some fence)
  | some _ => .error "unsupported or corrupt migration record envelope"

/-- The epoch of a group; it is zero before the first migration. -/
def epochOf (fence : Option ParticipantFence) : UInt64 := (fence.map (·.epoch)).getD 0

/-- The group is in the epoch and not closed. -/
def EpochIsOpen (fence : Option ParticipantFence) (epoch : UInt64) : Prop :=
  epochOf fence = epoch ∧ ¬ fence.any (·.closed)

instance (fence : Option ParticipantFence) (epoch : UInt64) : Decidable (EpochIsOpen fence epoch) :=
  inferInstanceAs (Decidable (_ ∧ _))

/-- Decisions of the older two-phase commit, in the meta group. -/
def txn2pcPrefix : Bytes := ascii "\x00txn2pc\x00"
def txn2pcEnd : Bytes := ascii "\x00txn2pc\x01"

def quiescent (kv : Kv) (isMeta : Bool) : Result Bool := do
  if kv.hasPendingIntents [] then pure false
  else if ← Participant.hasUnresolved kv then pure false
  else if isMeta then
    match ← rows kv txn2pcPrefix txn2pcEnd with
    | [] => pure true
    | _ :: _ => pure false
  else pure true

/-- How a journal command ends: with a response, or with a record to save. -/
inductive Outcome (α : Type)
  | respond (response : ShardResponse)
  | save (record : α)

def Outcome.map {α β : Type} (f : α → β) : Outcome α → Outcome β
  | respond response => .respond response
  | save record => .save (f record)

def acquire (kv : Kv) (isMeta : Bool) (operation : Uuid) (expectedEpoch : UInt64) :
    Result (Outcome ParticipantFence) :=
  match checkedSucc expectedEpoch with
  | none => pure (.respond (reject "routing epoch exhausted"))
  | some nextEpoch => do
    let current ← readFence kv
    if current.any fun f => f.operationId = operation ∧ f.epoch = nextEpoch then
      pure (.respond (if current.any (·.closed) then accepted
        else reject "operation already released this participant"))
    else if current.any fun f => f.closed ∨ f.operationId = operation then
      pure (.respond (reject "participant already belongs to a migration"))
    else if epochOf current ≠ expectedEpoch then
      pure (.respond (reject "stale participant epoch"))
    else if ← quiescent kv isMeta then
      pure (.save ⟨operation, nextEpoch, true⟩)
    else
      pure (.respond (reject
        "participant has pending intents or decisions; recover/drain transactions before fencing"))

def release (kv : Kv) (operation : Uuid) (epoch : UInt64) : Result (Outcome ParticipantFence) := do
  match ← readFence kv with
  | none => pure (.respond (reject "participant has no fence"))
  | some fence =>
    if fence.operationId ≠ operation ∨ fence.epoch ≠ epoch then
      pure (.respond (reject "stale fence release"))
    else if fence.closed then pure (.save { fence with closed := false })
    else pure (.respond accepted)

/-- The seal of a cancelled operation: a group at the operation's epoch, or past
it, needs none; a group the operation holds is released. -/
def cancelParticipant (kv : Kv) (isMeta : Bool) (operation : Uuid) (expectedEpoch : UInt64) :
    Result (Outcome ParticipantFence) :=
  match checkedSucc expectedEpoch with
  | none => pure (.respond (reject "epoch exhausted"))
  | some epoch => do
    let current ← readFence kv
    if current.any fun f => epoch < f.epoch then pure (.respond accepted)
    else if current.any fun f => f.epoch = epoch ∧ f.operationId ≠ operation then
      pure (.respond accepted)
    else if current.any fun f => f.operationId = operation ∧ f.epoch = epoch then
      if current.any (·.closed) then release kv operation epoch else pure (.respond accepted)
    else if current.any (·.closed) then
      pure (.respond (reject "another operation owns the source"))
    else if epochOf current ≠ expectedEpoch then
      pure (.respond (reject "unexpected cancellation epoch"))
    else if ← quiescent kv isMeta then
      pure (.save ⟨operation, epoch, false⟩)
    else pure (.respond (reject "pending transactions prevent cancellation seal"))

/-! ## The first journal -/

inductive MigrationCommandV1
  | plan (plan : MigrationPlan)
  | startFencing (table : TableId) (operation : Uuid)
  | requestCancel (table : TableId) (operation : Uuid)
  | acquire (operation : Uuid) (expectedEpoch : UInt64)
  | release (operation : Uuid) (epoch : UInt64)
  deriving DecidableEq

def MigrationCommandV1.key : MigrationCommandV1 → Bytes
  | plan p => journalKey p.tableId
  | startFencing table _ | requestCancel table _ => journalKey table
  | acquire _ _ | release _ _ => fenceKey

def RecordV3.active (record : RecordV3) : Bool :=
  decide (record.phase ≠ .done ∧ record.phase ≠ .cancelled)

def planV1 (kv : Kv) (isMeta : Bool) (plan : MigrationPlan) : Result (Outcome MigrationRecord) :=
  if !isMeta then pure (.respond (reject "migration journal belongs to the meta group"))
  else if ¬ ValidPlan plan then pure (.respond (reject "invalid migration plan"))
  else do
    let v2 ← readRecordV2 kv plan.tableId
    if v2.isSome then
      pure (.respond (reject "V2 journal prevents legacy coordinator planning"))
    else
      let v3 ← readRecordV3 kv plan.tableId
      if v3.any (·.active) then
        pure (.respond (reject "V3 journal prevents legacy coordinator planning"))
      else
        match ← readRecord kv plan.tableId with
        | some current =>
          pure (.respond (if current.plan = plan then accepted
            else reject "another migration owns this table"))
        | none => pure (.save ⟨plan, .planned⟩)

/-- `StartFencing` and `RequestCancel`, which differ in the next phase. -/
def advanceV1 (kv : Kv) (isMeta : Bool) (table : TableId) (operation : Uuid)
    (next : MigrationPhase) : Result (Outcome MigrationRecord) :=
  if !isMeta then pure (.respond (reject "migration journal belongs to the meta group"))
  else do
    match ← readRecord kv table with
    | none => pure (.respond (reject "migration is not planned"))
    | some record =>
      if record.plan.operationId ≠ operation then
        pure (.respond (reject "migration operation ID mismatch"))
      else if record.phase = next then pure (.respond accepted)
      else if record.phase = .cancelRequested then
        pure (.respond (reject "cancelled migration cannot resume fencing"))
      else pure (.save { record with phase := next })

/-- What a command decides; the record is what it will store. -/
def MigrationCommandV1.outcome (kv : Kv) (isMeta : Bool) :
    MigrationCommandV1 → Result (Outcome Value)
  | plan p => (planV1 kv isMeta p).map (.map .migration)
  | startFencing table operation =>
    (advanceV1 kv isMeta table operation .fencing).map (.map .migration)
  | requestCancel table operation =>
    (advanceV1 kv isMeta table operation .cancelRequested).map (.map .migration)
  | acquire operation expectedEpoch =>
    (Migration.acquire kv isMeta operation expectedEpoch).map (.map .fence)
  | release operation epoch => (Migration.release kv operation epoch).map (.map .fence)

section Apply

variable [Hashes]

/-- Save the record of a command, if there is one. -/
def Outcome.finish (outcome : Outcome Value) (kv : Kv) (key : Bytes) (index : UInt64) :
    Result (Kv × ShardResponse) :=
  match outcome with
  | respond response => pure (kv, response)
  | save record => do
    let kv ← write kv key record index
    pure (kv, accepted)

/-- Apply a command that has one record. A crash may have left this entry's own
write, which goes first; user intents stay. -/
def journal (kv : Kv) (key : Bytes) (index : UInt64) (outcome : Kv → Result (Outcome Value)) :
    Result (Kv × ShardResponse) := do
  let kv := cleanControlIntent kv key index
  (← outcome kv).finish kv key index

def applyControl (kv : Kv) (cmd : MigrationCommandV1) (index : UInt64) (isMeta : Bool) :
    Result (Kv × ShardResponse) :=
  journal kv cmd.key index fun kv => cmd.outcome kv isMeta

def applyCancelParticipant (kv : Kv) (operation : Uuid) (expectedEpoch : UInt64) (index : UInt64)
    (isMeta : Bool) : Result (Kv × ShardResponse) :=
  journal kv fenceKey index fun kv =>
    (cancelParticipant kv isMeta operation expectedEpoch).map (.map .fence)

end Apply

section Specs

variable {kv kv' : Kv} {isMeta : Bool} {operation : Uuid} {epoch expectedEpoch : UInt64}
  {fence : ParticipantFence} {response : ShardResponse}

/-- A group is closed in an epoch after its own, by another operation, when it
is open and quiescent; an acquisition that has nothing to do finds the fence it
asks for. -/
theorem acquire_spec (h : acquire kv isMeta operation expectedEpoch = .ok outcome) :
    match outcome with
    | .save fence =>
      ∃ current, readFence kv = .ok current ∧ EpochIsOpen current expectedEpoch ∧
        checkedSucc expectedEpoch = some fence.epoch ∧ fence.operationId = operation ∧
        fence.closed = true ∧ quiescent kv isMeta = .ok true
    | .respond response => response.success = true →
      ∃ next, checkedSucc expectedEpoch = some next ∧
        readFence kv = .ok (some ⟨operation, next, true⟩) := by
  unfold acquire at h
  split at h
  · cases h
    exact nofun
  next nextEpoch hnext =>
  obtain ⟨current, hcurrent, h⟩ := bind_eq_ok.mp h
  split at h
  next hsame =>
    cases h
    intro hr
    obtain ⟨⟨o, n, c⟩, rfl, hf⟩ := (Option.any_eq_true _ _).mp hsame
    obtain ⟨rfl, rfl⟩ := of_decide_eq_true hf
    cases c
    · cases hr
    · exact ⟨_, hnext, hcurrent⟩
  split at h
  · cases h
    exact nofun
  next hclosed =>
  split at h
  · cases h
    exact nofun
  next hepoch =>
  obtain ⟨quiet, hquiet, h⟩ := bind_eq_ok.mp h
  split at h
  next hq =>
    cases h
    subst hq
    refine ⟨current, hcurrent, ⟨not_not.mp hepoch, fun hc => hclosed ?_⟩, hnext, rfl, rfl, hquiet⟩
    obtain ⟨f, hf, hfc⟩ := (Option.any_eq_true _ _).mp hc
    exact (Option.any_eq_true _ _).mpr ⟨f, hf, by simpa using Or.inl hfc⟩
  · cases h
    exact nofun

theorem release_save (h : release kv operation epoch = .ok (.save fence)) :
    readFence kv = .ok (some ⟨operation, epoch, true⟩) ∧ fence = ⟨operation, epoch, false⟩ := by
  unfold release at h
  obtain ⟨current, hcurrent, h⟩ := bind_eq_ok.mp h
  split at h
  · cases h
  next f =>
  split at h
  · cases h
  next hsame =>
  rw [not_or, not_not, not_not] at hsame
  split at h
  next hclosed =>
    obtain ⟨o, e, c⟩ := f
    cases h
    obtain ⟨rfl, rfl⟩ := hsame
    cases hclosed
    exact ⟨hcurrent, rfl⟩
  · cases h

theorem release_of_closed (h : readFence kv = .ok (some ⟨operation, epoch, true⟩)) :
    release kv operation epoch = .ok (.save ⟨operation, epoch, false⟩) := by
  simp [release, h, pure, Except.pure, bind, Except.bind]

/-- The fence shows that the operation is over in this group: it is past the
operation's epoch, or in it by another operation or open. -/
def Sealed (operation : Uuid) (epoch : UInt64) (fence : ParticipantFence) : Prop :=
  epoch < fence.epoch ∨ fence.epoch = epoch ∧ (fence.operationId ≠ operation ∨ fence.closed = false)

/-- A seal opens the fence that the operation has closed, or advances the epoch
of an open and quiescent group; a seal that has nothing to do finds the group
sealed. -/
theorem cancelParticipant_spec
    (h : cancelParticipant kv isMeta operation expectedEpoch = .ok outcome) :
    match outcome with
    | .save fence => checkedSucc expectedEpoch = some fence.epoch ∧ fence.operationId = operation ∧
      fence.closed = false ∧
      (readFence kv = .ok (some ⟨operation, fence.epoch, true⟩) ∨
        ∃ current, readFence kv = .ok current ∧ EpochIsOpen current expectedEpoch ∧
          quiescent kv isMeta = .ok true)
    | .respond response => response.success = true →
      ∃ next fence, checkedSucc expectedEpoch = some next ∧ readFence kv = .ok (some fence) ∧
        Sealed operation next fence := by
  unfold cancelParticipant at h
  split at h
  · cases h
    exact nofun
  next nextEpoch hnext =>
  obtain ⟨current, hcurrent, h⟩ := bind_eq_ok.mp h
  split at h
  next hpast =>
    obtain ⟨f, rfl, hf⟩ := (Option.any_eq_true _ _).mp hpast
    cases h
    exact fun _ => ⟨nextEpoch, f, hnext, hcurrent, .inl (of_decide_eq_true hf)⟩
  split at h
  next hother =>
    obtain ⟨f, rfl, hf⟩ := (Option.any_eq_true _ _).mp hother
    have hf := of_decide_eq_true hf
    cases h
    exact fun _ => ⟨nextEpoch, f, hnext, hcurrent, .inr ⟨hf.1, .inl hf.2⟩⟩
  split at h
  next hown =>
    obtain ⟨⟨o, n, c⟩, rfl, hf⟩ := (Option.any_eq_true _ _).mp hown
    obtain ⟨rfl, rfl⟩ := of_decide_eq_true hf
    cases c with
    | true =>
      cases (release_of_closed hcurrent).symm.trans h
      exact ⟨hnext, rfl, rfl, .inl hcurrent⟩
    | false =>
      cases h
      exact fun _ => ⟨_, _, hnext, hcurrent, .inr ⟨rfl, .inr rfl⟩⟩
  split at h
  · cases h
    exact nofun
  next hopen =>
  split at h
  · cases h
    exact nofun
  next hepoch =>
  obtain ⟨quiet, hquiet, h⟩ := bind_eq_ok.mp h
  split at h
  next hq =>
    cases h
    subst hq
    exact ⟨hnext, rfl, rfl, .inr ⟨current, hcurrent, ⟨not_not.mp hepoch, hopen⟩, hquiet⟩⟩
  · cases h
    exact nofun

theorem quiescent_spec (h : quiescent kv isMeta = .ok true) :
    (∀ txn, kv.keysOf txn = []) ∧ Participant.hasUnresolved kv = .ok false := by
  unfold quiescent at h
  split at h
  · cases h
  next hpending =>
  obtain ⟨unresolved, hunresolved, h⟩ := bind_eq_ok.mp h
  split at h
  · cases h
  next hres =>
  refine ⟨fun txn => ?_, by rw [hunresolved, Bool.eq_false_of_not_eq_true hres]⟩
  rw [Table.keysOf, List.map_eq_nil_iff]
  cases hget : kv.intents.get? txn with
  | none => rfl
  | some keys =>
    refine List.eq_nil_iff_forall_not_mem.mpr fun e he => hpending ?_
    rw [Table.hasPendingIntents, List.any_eq_true]
    exact ⟨e, List.mem_flatten.mpr ⟨keys, OrdMap.mem_values.mpr ⟨txn, hget⟩, he⟩, rfl⟩

theorem pending_of_keysOf (h : kv.WF) (hk : ∀ txn, kv.keysOf txn = []) (j : Bytes) :
    (kv.view j).pending = none := by
  cases hp : (kv.view j).pending with
  | none => rfl
  | some p =>
    have hmem := h.indexed j p.1 (by rw [KeyState.owner, hp]; rfl)
    rw [hk] at hmem
    cases hmem

theorem outcome_map_eq_save {α : Type} {f : α → Value} {x : Result (Outcome α)} {v : Value}
    (h : x.map (Outcome.map f) = .ok (.save v)) :
    ∃ record, x = .ok (.save record) ∧ v = f record := by
  cases x with
  | error e => cases h
  | ok o =>
    cases o with
    | respond r => cases h
    | save record =>
      cases h
      exact ⟨record, rfl, rfl⟩

theorem outcome_map_eq_respond {α : Type} {f : α → Value} {x : Result (Outcome α)}
    (h : x.map (Outcome.map f) = .ok (.respond response)) : x = .ok (.respond response) := by
  cases x with
  | error e => cases h
  | ok o =>
    cases o with
    | respond r =>
      cases h
      rfl
    | save record => cases h

theorem journal_spec [Hashes] (h : kv.WF)
    (hj : journal kv key index outcome = .ok (kv', response)) :
    ∃ kv₁, Published kv kv₁ (writeId key index) [] index.toNat ∧
      ((outcome kv₁ = .ok (.respond response) ∧ kv' = kv₁) ∨
        ∃ v, outcome kv₁ = .ok (.save v) ∧ response = accepted ∧
          Published kv₁ kv' (writeId key index) [.put key v] index.toNat) := by
  have hclean : Published kv (cleanControlIntent kv key index) (writeId key index) [] index.toNat :=
    clean_spec h
  refine ⟨_, hclean, ?_⟩
  simp only [journal, bind_eq_ok] at hj
  obtain ⟨o, ho, hf⟩ := hj
  cases o with
  | respond r =>
    cases hf
    exact .inl ⟨ho, rfl⟩
  | save v =>
    simp only [Outcome.finish, bind_eq_ok] at hf
    obtain ⟨kv₂, hw, hf⟩ := hf
    cases hf
    exact .inr ⟨v, ho, rfl, write_ok hclean.wf hclean.idle hw⟩

end Specs

end Migration

end NodusDb.Raft
