import NodusDb.Raft.Authority
import NodusDb.Raft.Writes

/-!
# Participants

A group that takes part in a tracked transaction keeps a record of it. Writes and repairs need an
active record, a commit needs a prepared one, and the decision of the authority ends it. A committed
record and the user data are written in one commit.
-/

namespace NodusDb.Raft.Participant

open Result
open Migration (EpochIntentOperationV1 ReplacementV2 EpochIsOpen readFence invalidWriteBatch
  isControlKey)

inductive OperationV1
  | write (operations : List EpochIntentOperationV1)
  | repair (key : Bytes) (replacement : ReplacementV2)
  | prepare (keysHash : Digest)
  | resolve (decision : Authority.RecordV1)
  deriving DecidableEq

structure CommandV1 where
  txnId : Uuid
  owner : Authority.OwnerV1
  generation : UInt64
  epoch : UInt64
  operation : OperationV1
  deriving DecidableEq

section Apply

variable [Hashes]

/-- The digest of a set of keys: sorted, without duplicates, each with its length. -/
def digestKeys (keys : List Bytes) : Digest :=
  Hashes.sha256 (ascii "nodus-participant-keys-v1" ++
    ((keys.insertionSort (· ≤ ·)).dedup).flatMap fun key =>
      toBeBytes (UInt64.ofNat key.length) ++ key)

/-- The digest of the keys that a transaction has written. -/
def pendingHash (kv : Kv) (txn : Uuid) : Digest :=
  digestKeys ((kv.keysOf txn).filter (· ≠ key txn))

/-- Write a record in a transaction of its own. -/
def save (kv : Kv) (record : RecordV1) (index : UInt64) : Result Kv := do
  validate record
  saveRecord kv (key record.txnId) (.participant record) index

/-- The record of a command's transaction with a phase. -/
def CommandV1.record (cmd : CommandV1) (phase : PhaseV1) : RecordV1 :=
  ⟨cmd.txnId, cmd.owner, cmd.generation, cmd.epoch, phase⟩

/-! ## Decisions -/

def validateSuccessor (old next : RecordV1) : Result Unit := do
  ensure (old.epoch = next.epoch) "participant epoch differs from decision"
  if old.phase.terminal then
    ensure (old = next) "participant terminal decision is immutable"
  else if next.generation = old.generation then
    ensure (next.owner = old.owner) "participant owner changed without fencing"
  else
    ensure (next.phase = .aborted ∧ checkedSucc old.generation = some next.generation ∧
      old.owner ≠ next.owner) "stale or invalid participant generation"

/-- The phase that a terminal decision leads to. -/
def terminalPhase : Authority.PhaseV1 → Result PhaseV1
  | .committed commitTs => pure (.committed commitTs)
  | .aborted => pure .aborted
  | _ => .error "resolution requires a terminal authority decision"

def validateDecision (group : Bytes) (cmd : CommandV1) (decision : Authority.RecordV1)
    (old : Option RecordV1) : Result RecordV1 := do
  decision.validate
  ensure (decision.txnId = cmd.txnId ∧ decision.token.owner = cmd.owner ∧
    decision.token.generation = cmd.generation) "decision and participant identities differ"
  ensure (decision.participants.get? group = some cmd.epoch)
    "decision does not enroll this participant epoch"
  let phase ← terminalPhase decision.phase
  validate (cmd.record phase)
  old.elim (pure ()) fun old => validateSuccessor old (cmd.record phase)
  pure (cmd.record phase)

/-- A committed record and the user data, in one commit. -/
def commit (kv : Kv) (cmd : CommandV1) (old : Option RecordV1) (next : RecordV1)
    (commitTs index : UInt64) : Result (Kv × ShardResponse) := do
  if old = some next then pure (kv, accepted)
  else if ¬ EpochIsOpen (← readFence kv) cmd.epoch then
    pure (kv, reject "stale epoch or fenced participant; commit refused")
  else
    match old.map RecordV1.phase with
    | some (.prepared keysHash) =>
      if pendingHash kv cmd.txnId ≠ keysHash then
        pure (kv, reject "prepared participant lost intents; commit refused")
      else if commitTs ≤ index then
        pure (kv, reject "commit timestamp must exceed participant Raft index")
      else
        let kv ← putIntent kv cmd.txnId (.put (key cmd.txnId) (.participant next))
        pure (kv.commit cmd.txnId commitTs.toNat, accepted)
    | _ => pure (kv, reject "commit requires a prepared participant")

/-- An aborted record; the intents go even if it is already there, since a crash
may have come between the two. -/
def abort (kv : Kv) (cmd : CommandV1) (old : Option RecordV1) (next : RecordV1)
    (index : UInt64) : Result (Kv × ShardResponse) := do
  if old = none ∧ kv.keysOf cmd.txnId ≠ [] then
    pure (kv, reject "cannot abort untracked participant intents")
  else
    let kv ← (if old = some next then pure kv else save kv next index)
    pure (kv.abort cmd.txnId, accepted)

def resolve (kv : Kv) (group : Bytes) (cmd : CommandV1) (decision : Authority.RecordV1)
    (old : Option RecordV1) (index : UInt64) : Result (Kv × ShardResponse) :=
  match validateDecision group cmd decision old with
  | .error error => pure (kv, reject error)
  | .ok next =>
    match next.phase with
    | .committed commitTs => commit kv cmd old next commitTs index
    | _ => abort kv cmd old next index

/-! ## Commands -/

def reserved (key : Bytes) : Bool := isControlKey key || Upgrade.keyPrefix.isPrefixOf key

def write (kv : Kv) (cmd : CommandV1) (old : Option RecordV1) (index : UInt64)
    (operations : List EpochIntentOperationV1) : Result (Kv × ShardResponse) := do
  if (old.map (·.phase)).getD .active ≠ .active then
    pure (kv, reject "participant no longer accepts writes")
  else
    match invalidWriteBatch operations with
    | some error => pure (kv, reject error)
    | none =>
      if operations.any fun op => reserved op.key then
        pure (kv, reject "reserved participant control key")
      else
        let kv ← (if old = none then save kv (cmd.record .active) index else pure kv)
        Migration.respond kv (reject "write conflict; retry transaction")
          (kv.writeIntentBatch cmd.txnId (operations.map EpochIntentOperationV1.toIntent) 0)

def repair (kv : Kv) (cmd : CommandV1) (old : Option RecordV1) (key : Bytes)
    (replacement : ReplacementV2) : Result (Kv × ShardResponse) :=
  if (old.map (·.phase)).getD .active ≠ .active then
    pure (kv, reject "participant no longer accepts repairs")
  else Migration.applyRepair kv cmd.epoch cmd.txnId key replacement

def prepare (kv : Kv) (cmd : CommandV1) (old : Option RecordV1) (index : UInt64)
    (keysHash : Digest) : Result (Kv × ShardResponse) := do
  let phase := (old.map (·.phase)).getD .active
  if phase.terminal ∨ pendingHash kv cmd.txnId ≠ keysHash then
    pure (kv, reject "participant write set changed or transaction decided")
  else
    match phase with
    | .prepared oldHash =>
      pure (kv, if oldHash = keysHash then accepted else reject "conflicting prepare")
    | _ =>
      let kv ← save kv (cmd.record (.prepared keysHash)) index
      pure (kv, accepted)

/-- A command other than a decision, in an open group, by the transaction's owner. -/
def operate (kv : Kv) (cmd : CommandV1) (old : Option RecordV1) (index : UInt64) :
    Result (Kv × ShardResponse) :=
  match cmd.operation with
  | .write operations => write kv cmd old index operations
  | .repair key replacement => repair kv cmd old key replacement
  | .prepare keysHash => prepare kv cmd old index keysHash
  | .resolve _ => .error "resolution handled above"

/-- Whether a command is of the transaction that the record is of. A first
command has to be a write, by a transaction without untracked intents. -/
def admitted (kv : Kv) (cmd : CommandV1) : Option RecordV1 → Option String
  | some old =>
    if old.owner ≠ cmd.owner ∨ old.generation ≠ cmd.generation ∨ old.epoch ≠ cmd.epoch then
      some "stale participant owner, generation or epoch"
    else none
  | none =>
    match cmd.operation with
    | .write _ =>
      if kv.keysOf cmd.txnId ≠ [] then some "participant is absent or has untracked intents"
      else none
    | _ => some "participant is absent or has untracked intents"

def apply (kv : Kv) (group : Bytes) (cmd : CommandV1) (index : UInt64) :
    Result (Kv × ShardResponse) := do
  let old ← read kv cmd.txnId
  match cmd.operation with
  | .resolve decision => resolve kv group cmd decision old index
  | _ =>
    match validate (cmd.record .active) with
    | .error error => pure (kv, reject error)
    | .ok () =>
      if ¬ EpochIsOpen (← readFence kv) cmd.epoch then
        pure (kv, reject "stale epoch or fenced participant; retry transaction")
      else
        match admitted kv cmd old with
        | some error => pure (kv, reject error)
        | none => operate kv cmd old index

end Apply

/-! ## Snapshots -/

/-- How a record of a snapshot may follow the record in place. -/
def validateFollowing (current incoming : RecordV1) : Result Unit := do
  ensure (incoming.epoch = current.epoch) "snapshot changes participant epoch"
  if current.phase.terminal then
    ensure (incoming = current) "snapshot changes a participant decision"
  else if incoming.generation = current.generation then
    ensure (incoming.owner = current.owner) "snapshot changes participant owner"
    match current.phase with
    | .prepared keysHash =>
      ensure (incoming.phase ≠ .active) "snapshot unprepares a participant"
      match incoming.phase with
      | .prepared incomingHash =>
        ensure (keysHash = incomingHash) "snapshot changes prepared write set"
      | _ => pure ()
    | _ => pure ()
  else
    ensure (checkedSucc current.generation = some incoming.generation ∧
      incoming.phase = .aborted ∧ incoming.owner ≠ current.owner)
      "snapshot contains invalid participant fencing"

def validateSnapshot (kv : Kv) (recordKey : Bytes) (value : Value) : Result Unit := do
  let incoming ← decode value
  ensure (key incoming.txnId = recordKey) "participant key/ID mismatch"
  match ← read kv incoming.txnId with
  | none => pure ()
  | some current => validateFollowing current incoming

section Cases

variable [Hashes] {kv kv' kv₁ : Kv} {group : Bytes} {cmd : CommandV1} {index : UInt64}
  {old : Option RecordV1} {response : ShardResponse}

/-- The record is the one of the command's transaction. -/
def RecordV1.Of (record : RecordV1) (cmd : CommandV1) : Prop :=
  record.owner = cmd.owner ∧ record.generation = cmd.generation ∧ record.epoch = cmd.epoch

/-- The state in which a write finds an active record: the first write of a
transaction publishes it. -/
inductive Started (kv : Kv) (cmd : CommandV1) (index : UInt64) : Option RecordV1 → Kv → Prop
  | first {kv₁ : Kv} (hidle : kv.keysOf cmd.txnId = [])
      (hpub : Published kv kv₁ (writeId (key cmd.txnId) index)
        [.put (key cmd.txnId) (.participant (cmd.record .active))] index.toNat) :
      Started kv cmd index none kv₁
  | again {record : RecordV1} (hof : record.Of cmd) (hphase : record.phase = .active) :
      Started kv cmd index (some record) kv

/-- What a command does to the group, given the record it finds. -/
inductive Applied (kv : Kv) (group : Bytes) (cmd : CommandV1) (index : UInt64) :
    Option RecordV1 → Kv → ShardResponse → Prop
  | rejected {old : Option RecordV1} {response : ShardResponse} (hr : response.success = false) :
      Applied kv group cmd index old kv response
  | wrote {old : Option RecordV1} {kv₁ kv' : Kv} {response : ShardResponse}
      (ops : List EpochIntentOperationV1) (hop : cmd.operation = .write ops)
      (hvalid : validate (cmd.record .active) = .ok ()) (hopen : Migration.Open kv cmd.epoch)
      (hkeys : ∀ op ∈ ops, reserved op.key = false) (hstart : Started kv cmd index old kv₁)
      (hwrite : (kv' = kv₁ ∧ response.success = false) ∨
        (kv' = kv₁.replayAll cmd.txnId (ops.map EpochIntentOperationV1.toIntent) 0 ∧
          response = accepted ∧ ∀ op ∈ ops, ¬ (kv₁.view op.key).blocks cmd.txnId)) :
      Applied kv group cmd index old kv' response
  | repaired {record : RecordV1} {response : ShardResponse} (key : Bytes)
      (replacement : ReplacementV2) (hop : cmd.operation = .repair key replacement)
      (hof : record.Of cmd) (hphase : record.phase = .active)
      (hopen : Migration.Open kv cmd.epoch) (hkey : isControlKey key = false)
      (hr : response = accepted ∨ response.success = false) :
      Applied kv group cmd index (some record)
        (kv.replaceIntent cmd.txnId key replacement.toIntent 0).1 response
  | prepareRetried {record : RecordV1} (hash : Digest) (hop : cmd.operation = .prepare hash)
      (hof : record.Of cmd) (hphase : record.phase = .prepared hash)
      (hopen : Migration.Open kv cmd.epoch) (hhash : pendingHash kv cmd.txnId = hash) :
      Applied kv group cmd index (some record) kv accepted
  | prepared {record : RecordV1} {kv' : Kv} (hash : Digest) (hop : cmd.operation = .prepare hash)
      (hvalid : validate (cmd.record .active) = .ok ()) (hof : record.Of cmd)
      (hphase : record.phase = .active)
      (hopen : Migration.Open kv cmd.epoch) (hhash : pendingHash kv cmd.txnId = hash)
      (hpub : Published kv kv' (writeId (key cmd.txnId) index)
        [.put (key cmd.txnId) (.participant (cmd.record (.prepared hash)))] index.toNat) :
      Applied kv group cmd index (some record) kv' accepted
  | commitRetried {next : RecordV1} (decision : Authority.RecordV1) (commitTs : UInt64)
      (hop : cmd.operation = .resolve decision)
      (hnext : validateDecision group cmd decision (some next) = .ok next)
      (hphase : next.phase = .committed commitTs) :
      Applied kv group cmd index (some next) kv accepted
  | committed {record next : RecordV1} {kv' : Kv} (decision : Authority.RecordV1)
      (commitTs : UInt64) (hash : Digest) (hop : cmd.operation = .resolve decision)
      (hnext : validateDecision group cmd decision (some record) = .ok next)
      (hphase : next.phase = .committed commitTs) (hold : record.phase = .prepared hash)
      (hopen : Migration.Open kv cmd.epoch) (hhash : pendingHash kv cmd.txnId = hash)
      (hts : index < commitTs)
      (hput : putIntent kv cmd.txnId (.put (key cmd.txnId) (.participant next)) = .ok kv') :
      Applied kv group cmd index (some record) (kv'.commit cmd.txnId commitTs.toNat) accepted
  | aborted {old : Option RecordV1} {next : RecordV1} {kv₁ : Kv} (decision : Authority.RecordV1)
      (hop : cmd.operation = .resolve decision)
      (hnext : validateDecision group cmd decision old = .ok next) (hphase : next.phase = .aborted)
      (hidle : old = none → kv.keysOf cmd.txnId = [])
      (hsave : (old = some next ∧ kv₁ = kv) ∨ (old ≠ some next ∧
        Published kv kv₁ (writeId (key next.txnId) index)
          [.put (key next.txnId) (.participant next)] index.toNat)) :
      Applied kv group cmd index old (kv₁.abort cmd.txnId) accepted

/-- What a decision that is accepted says about the next record. -/
structure Decides (group : Bytes) (cmd : CommandV1) (decision : Authority.RecordV1)
    (old : Option RecordV1) (next : RecordV1) : Prop where
  valid : decision.validate = .ok ()
  txnId : decision.txnId = cmd.txnId
  owner : decision.token.owner = cmd.owner
  generation : decision.token.generation = cmd.generation
  enrolled : decision.participants.get? group = some cmd.epoch
  next_valid : validate next = .ok ()
  successor : ∀ record, old = some record → validateSuccessor record next = .ok ()
  phase : (∃ ts, decision.phase = .committed ts ∧ next = cmd.record (.committed ts)) ∨
    (decision.phase = .aborted ∧ next = cmd.record .aborted)

theorem save_ok (h : kv.WF) (hs : save kv record index = .ok kv') :
    validate record = .ok () ∧ Published kv kv' (writeId (key record.txnId) index)
      [.put (key record.txnId) (.participant record)] index.toNat := by
  simp only [save, bind_eq_ok] at hs
  obtain ⟨_, hvalid, hs⟩ := hs
  exact ⟨hvalid, saveRecord_ok h hs⟩

variable {decision : Authority.RecordV1}

section

omit [Hashes]

theorem validateDecision_ok (hv : validateDecision group cmd decision old = .ok next) :
    Decides group cmd decision old next := by
  simp only [validateDecision, bind_eq_ok, ensure_eq_ok] at hv
  obtain ⟨_, hvalid, _, hid, _, henrolled, phase, hphase, _, hnext, _, hsucc, hv⟩ := hv
  cases hv
  have hsucc' : ∀ record, old = some record → validateSuccessor record (cmd.record phase) = .ok () := by
    rintro record rfl
    exact hsucc
  refine ⟨hvalid, hid.1, hid.2.1, hid.2.2, henrolled, hnext, hsucc', ?_⟩
  cases hd : decision.phase with
  | active | preparing => rw [hd] at hphase; cases hphase
  | committed ts =>
    rw [hd] at hphase
    cases hphase
    exact .inl ⟨ts, rfl, rfl⟩
  | aborted =>
    rw [hd] at hphase
    cases hphase
    exact .inr ⟨rfl, rfl⟩

theorem Decides.aborted_of (hd : Decides group cmd decision old next)
    (hne : ∀ ts, next.phase = .committed ts → False) : next.phase = .aborted := by
  rcases hd.phase with ⟨ts, -, rfl⟩ | ⟨-, rfl⟩
  · exact absurd rfl (hne ts)
  · rfl

theorem admitted_some (h : admitted kv cmd (some record) = none) :
    record.Of cmd := by
  simp only [admitted] at h
  split at h
  · cases h
  next hne =>
  rw [not_or, not_or, not_not, not_not, not_not] at hne
  exact hne

theorem admitted_none (h : admitted kv cmd none = none) :
    (∃ ops, cmd.operation = .write ops) ∧ kv.keysOf cmd.txnId = [] := by
  simp only [admitted] at h
  split at h
  next ops hop =>
    split at h
    · cases h
    next hk => exact ⟨⟨ops, hop⟩, not_not.mp hk⟩
  · cases h

end

variable (h : kv.WF) (hvalid : validate (cmd.record .active) = .ok ())
  (hopen : Migration.Open kv cmd.epoch) (hadmitted : admitted kv cmd old = none)

include h hvalid hopen hadmitted

theorem write_cases {ops : List EpochIntentOperationV1} (hop : cmd.operation = .write ops)
    (ha : write kv cmd old index ops = .ok (kv', response)) :
    Applied kv group cmd index old kv' response := by
  unfold write at ha
  split at ha
  · cases ha
    exact .rejected rfl
  next hphase =>
  split at ha
  · cases ha
    exact .rejected rfl
  split at ha
  · cases ha
    exact .rejected rfl
  next hres =>
  obtain ⟨kv₁, hstart, ha⟩ := bind_eq_ok.mp ha
  have hkeys : ∀ op ∈ ops, reserved op.key = false := fun op hop =>
    Bool.eq_false_of_not_eq_true fun hc => hres (List.any_eq_true.mpr ⟨op, hop, hc⟩)
  have hstarted : Started kv cmd index old kv₁ := by
    cases old with
    | none =>
      rw [if_pos rfl] at hstart
      exact .first (admitted_none hadmitted).2 (save_ok h hstart).2
    | some record =>
      rw [if_neg nofun] at hstart
      cases hstart
      exact .again (admitted_some hadmitted) (not_not.mp hphase)
  have hwf : kv₁.WF := by
    cases hstarted with
    | first _ hpub => exact hpub.wf
    | again => exact h
  refine .wrote ops hop hvalid hopen hkeys hstarted ?_
  rcases Migration.respond_writeIntentBatch hwf ha with ⟨rfl, rfl, -⟩ | ⟨rfl, rfl, hfree⟩
  · exact .inl ⟨rfl, rfl⟩
  refine .inr ⟨rfl, rfl, fun op hop => ?_⟩
  have := hfree _ (List.mem_map_of_mem hop)
  rwa [EpochIntentOperationV1.key_toIntent] at this

theorem prepare_cases {hash : Digest} (hop : cmd.operation = .prepare hash)
    (ha : prepare kv cmd old index hash = .ok (kv', response)) :
    Applied kv group cmd index old kv' response := by
  cases old with
  | none =>
    obtain ⟨ops, hw⟩ := (admitted_none hadmitted).1
    rw [hop] at hw
    cases hw
  | some record =>
    simp only [prepare, Option.map_some, Option.getD_some] at ha
    split at ha
    · cases ha
      exact .rejected rfl
    next hcheck =>
    rw [not_or, not_not] at hcheck
    split at ha
    next oldHash hphase =>
      cases ha
      split
      next heq =>
        subst heq
        exact .prepareRetried oldHash hop (admitted_some hadmitted) hphase hopen hcheck.2
      · exact .rejected rfl
    next hphase =>
      obtain ⟨kv₁, hs, ha⟩ := bind_eq_ok.mp ha
      cases ha
      refine .prepared hash hop hvalid (admitted_some hadmitted) ?_ hopen hcheck.2 (save_ok h hs).2
      cases hp : record.phase with
      | active => rfl
      | prepared oldHash => exact absurd hp (hphase oldHash)
      | committed ts | aborted => exact absurd (by rw [hp]; rfl) hcheck.1

omit h hvalid in
theorem repair_cases {key : Bytes} (hop : cmd.operation = .repair key replacement)
    (ha : repair kv cmd old key replacement = .ok (kv', response)) :
    Applied kv group cmd index old kv' response := by
  cases old with
  | none =>
    obtain ⟨ops, hw⟩ := (admitted_none hadmitted).1
    rw [hop] at hw
    cases hw
  | some record =>
    unfold repair at ha
    split at ha
    · cases ha
      exact .rejected rfl
    next hphase =>
    rcases Migration.applyRepair_cases ha with ⟨rfl, hr⟩ | ⟨hr, -, hkey, rfl⟩
    · exact .rejected hr
    · exact .repaired key replacement hop (admitted_some hadmitted) (not_not.mp hphase) hopen hkey hr

omit hvalid hopen hadmitted

theorem resolve_cases (hop : cmd.operation = .resolve decision)
    (ha : resolve kv group cmd decision old index = .ok (kv', response)) :
    Applied kv group cmd index old kv' response := by
  unfold resolve at ha
  split at ha
  · cases ha
    exact .rejected rfl
  next next hnext =>
  split at ha
  next commitTs hphase =>
    unfold commit at ha
    split at ha
    next heq =>
      cases ha
      subst heq
      exact .commitRetried decision commitTs hop hnext hphase
    simp only [bind_eq_ok] at ha
    obtain ⟨fence, hfence, ha⟩ := ha
    split at ha
    · cases ha
      exact .rejected rfl
    next hopen =>
    split at ha
    next hash hold =>
      obtain ⟨record, rfl, hrec⟩ := Option.map_eq_some_iff.mp hold
      split at ha
      · cases ha
        exact .rejected rfl
      next hhash =>
      split at ha
      · cases ha
        exact .rejected rfl
      next hts =>
      obtain ⟨kv₁, hput, ha⟩ := bind_eq_ok.mp ha
      cases ha
      exact .committed decision commitTs hash hop hnext hphase hrec
        ⟨fence, hfence, not_not.mp hopen⟩ (not_not.mp hhash) (UInt64.not_le.mp hts) hput
    · cases ha
      exact .rejected rfl
  next hphase =>
    have haborted : next.phase = .aborted := (validateDecision_ok hnext).aborted_of hphase
    unfold abort at ha
    split at ha
    · cases ha
      exact .rejected rfl
    next hidle =>
    obtain ⟨kv₁, hs, ha⟩ := bind_eq_ok.mp ha
    cases ha
    refine .aborted decision hop hnext haborted (fun hn => ?_) ?_
    · exact not_not.mp fun hk => hidle ⟨hn, hk⟩
    split at hs
    next heq =>
      cases hs
      exact .inl ⟨heq, rfl⟩
    next hne => exact .inr ⟨hne, (save_ok h hs).2⟩

theorem apply_cases (ha : apply kv group cmd index = .ok (kv', response)) :
    ∃ old, read kv cmd.txnId = .ok old ∧ Applied kv group cmd index old kv' response := by
  simp only [apply, bind_eq_ok] at ha
  obtain ⟨old, hold, ha⟩ := ha
  refine ⟨old, hold, ?_⟩
  split at ha
  next decision hop => exact resolve_cases h hop ha
  next hop =>
  split at ha
  · cases ha
    exact .rejected rfl
  next hvalid =>
  obtain ⟨fence, hfence, ha⟩ := bind_eq_ok.mp ha
  split at ha
  · cases ha
    exact .rejected rfl
  next hopen =>
  have hopen' : Migration.Open kv cmd.epoch := ⟨fence, hfence, not_not.mp hopen⟩
  split at ha
  · cases ha
    exact .rejected rfl
  next hadmitted =>
  unfold operate at ha
  split at ha
  next ops hw => exact write_cases h hvalid hopen' hadmitted hw ha
  next k r hr => exact repair_cases hopen' hadmitted hr ha
  next hash hp => exact prepare_cases h hvalid hopen' hadmitted hp ha
  · cases ha

end Cases

end NodusDb.Raft.Participant
