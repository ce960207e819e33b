import NodusDb.Raft.Control

/-!
# The transaction authority

The meta group decides tracked transactions. A coordinator begins one, enrolls the groups that take
part, seals the set and decides; another coordinator can only abort it, in the next generation.
`transition_cases` says what a transition does, `validateSnapshotRecord` checks a snapshot's record.
-/

namespace NodusDb.Raft

open Result

namespace Authority

def maxParticipants : Nat := 256
def maxGroupBytes : Nat := 512
def maxRecordBytes : Nat := 256 * 1024

def OwnerV1.validate (owner : OwnerV1) : Result Unit :=
  ensure (!owner.incarnation.isNil) "nil coordinator incarnation"

def ValidGroup (group : Bytes) : Prop :=
  group ≠ [] ∧ group.length ≤ maxGroupBytes ∧ 0 ∉ group

instance (group : Bytes) : Decidable (ValidGroup group) := inferInstanceAs (Decidable (_ ∧ _))

def RecordV1.validate (record : RecordV1) : Result Unit := do
  ensure (!record.txnId.isNil) "nil transaction ID"
  record.token.owner.validate
  ensure (0 < record.token.generation ∧ record.token.generation ≤ record.token.revision)
    "invalid transaction generation or revision"
  ensure (record.token.generation = 1 ∨ record.phase = .aborted)
    "a fenced transaction must be aborted"
  ensure (record.participants.size ≤ maxParticipants) "too many participants"
  ensure (∀ group ∈ record.participants.keys, ValidGroup group) "invalid participant group"
  match record.phase with
  | .preparing => ensure (record.participants.size ≠ 0) "no transaction participants"
  | .committed commitTs => do
    ensure (record.participants.size ≠ 0) "no transaction participants"
    ensure (0 < commitTs) "zero commit timestamp"
  | _ => pure ()

inductive OperationV1
  | begin (owner : OwnerV1)
  | enroll (group : Bytes) (epoch : UInt64)
  | seal
  | commit (commitTs : UInt64)
  | abort
  | fenceAbort (recovery : OwnerV1)
  deriving DecidableEq, Repr

structure CommandV1 where
  txnId : Uuid
  expected : Option TokenV1
  operation : OperationV1
  deriving DecidableEq

def decode : Value → Result RecordV1
  | .authority record => do
    ensure ((encode record).length ≤ maxRecordBytes) "transaction authority record too large"
    record.validate
    pure record
  | _ => .error "transaction authority requires a versioned envelope"

def read (kv : Kv) (txn : Uuid) : Result (Option RecordV1) :=
  match lookup kv (key txn) with
  | none => .ok none
  | some value => do
    let record ← decode value
    ensure (record.txnId = txn) "transaction authority key/ID mismatch"
    pure (some record)

/-- A retry of the decision that the transaction has. -/
def sameTerminal : PhaseV1 → OperationV1 → Bool
  | .committed a, .commit b => decide (a = b)
  | .aborted, .abort => true
  | _, _ => false

/-- The change an operation makes to an undecided record with the next revision. -/
def change (old next : RecordV1) : OperationV1 → Result RecordV1
  | .begin _ => .error "transaction ID already registered"
  | .enroll group epoch => do
    ensure (old.phase = .active) "participant set is sealed"
    ensure (ValidGroup group) "invalid participant group"
    ensure ((old.participants.get? group).all (· == epoch)) "participant epoch changed"
    pure { next with participants := next.participants.insert group epoch }
  | .seal => do
    ensure (old.phase = .active) "participant set already sealed"
    ensure (old.participants.size ≠ 0) "no transaction participants"
    pure { next with phase := .preparing }
  | .commit commitTs => do
    ensure (old.phase = .preparing) "transaction is not preparing"
    ensure (0 < commitTs) "zero commit timestamp"
    pure { next with phase := .committed commitTs }
  | .abort => pure { next with phase := .aborted }
  | .fenceAbort recovery => do
    recovery.validate
    ensure (recovery ≠ old.token.owner) "recovery must change owner"
    let generation ← required (checkedSucc old.token.generation) "transaction generation exhausted"
    pure { next with
      token := { next.token with owner := recovery, generation := generation }, phase := .aborted }

/-- An operation other than `begin`, on an existing record. -/
def advance (old : RecordV1) (token : TokenV1) (operation : OperationV1) : Result RecordV1 := do
  ensure (old.token.owner = token.owner ∧ old.token.generation = token.generation)
    "stale transaction owner or generation"
  -- The revision of a retry can be old, but not from the future.
  if sameTerminal old.phase operation ∧ 0 < token.revision ∧
      token.revision ≤ old.token.revision then pure old
  else
    ensure (old.token = token) "stale transaction revision"
    ensure (!old.phase.terminal) "transaction already decided"
    let revision ← required (checkedSucc old.token.revision) "transaction revision exhausted"
    let next ← change old { old with token := { old.token with revision := revision } } operation
    next.validate
    pure next

def transition (old : Option RecordV1) (cmd : CommandV1) : Result RecordV1 := do
  ensure (!cmd.txnId.isNil) "nil transaction ID"
  match cmd.operation with
  | .begin owner =>
    owner.validate
    ensure (cmd.expected = none) "begin must not carry a token"
    ensure (old = none) "transaction ID already registered"
    pure ⟨cmd.txnId, ⟨owner, 1, 1⟩, .empty, .active⟩
  | operation =>
    let old ← required old "transaction authority is absent"
    let token ← required cmd.expected "missing transaction token"
    advance old token operation

/-! ## Snapshots -/

/-- How a record of a snapshot may follow the record in place. -/
def validateFollowing (current incoming : RecordV1) : Result Unit := do
  ensure (current.token.revision ≤ incoming.token.revision)
    "snapshot would roll back transaction authority"
  ensure (incoming.token.revision = current.token.revision → incoming = current)
    "conflicting transaction authority revision"
  ensure (current.token.generation ≤ incoming.token.generation)
    "snapshot would roll back transaction generation"
  (if incoming.token.generation = current.token.generation then
    ensure (incoming.token.owner = current.token.owner) "snapshot changes owner without fencing"
  else
    ensure (checkedSucc current.token.generation = some incoming.token.generation ∧
      incoming.phase = .aborted ∧ incoming.token.owner ≠ current.token.owner)
      "snapshot contains an invalid transaction fence")
  ensure (∀ e ∈ current.participants.entries, incoming.participants.get? e.1 = some e.2)
    "snapshot removes or changes a participant"
  ensure (current.phase = .preparing →
      incoming.phase ≠ .active ∧ incoming.participants = current.participants)
    "snapshot changes a sealed participant set"
  ensure (current.phase.terminal → incoming = current)
    "snapshot would change a transaction decision"

def validateSnapshotRecord (kv : Kv) (recordKey : Bytes) (value : Value) : Result Unit := do
  let incoming ← decode value
  ensure (key incoming.txnId = recordKey) "transaction authority key/ID mismatch"
  match ← read kv incoming.txnId with
  | none => pure ()
  | some current => validateFollowing current incoming

/-! ## What a transition does -/

/-- An undecided record moves on by one revision. -/
structure Moved (old next : RecordV1) : Prop where
  undecided : old.phase.terminal = false
  txnId : next.txnId = old.txnId
  revision : checkedSucc old.token.revision = some next.token.revision
  owner : (next.token.generation = old.token.generation ∧ next.token.owner = old.token.owner) ∨
    (checkedSucc old.token.generation = some next.token.generation ∧ next.phase = .aborted ∧
      next.token.owner ≠ old.token.owner)
  participants : ∀ group epoch, old.participants.get? group = some epoch →
    next.participants.get? group = some epoch
  sealed : old.phase = .preparing → next.phase ≠ .active ∧ next.participants = old.participants
  valid : next.validate = .ok ()

variable {old next : RecordV1}

theorem moved_of_change (hphase : old.phase.terminal = false)
    (hrevision : checkedSucc old.token.revision = some revision)
    (h : change old { old with token := { old.token with revision := revision } } operation = .ok
      next) (hvalid : next.validate = .ok ()) : Moved old next := by
  cases operation with
  | begin owner => cases h
  | enroll group epoch =>
    simp only [change, bind_eq_ok, ensure_eq_ok] at h
    obtain ⟨_, hactive, _, -, _, hsame, h⟩ := h
    cases h
    refine ⟨hphase, rfl, hrevision, .inl ⟨rfl, rfl⟩, fun g e hg => ?_, fun hp => ?_, hvalid⟩
    · rw [OrdMap.get?_insert]
      split
      next heq =>
        rw [show old.participants.get? group = some e from heq ▸ hg, Option.all_some,
          beq_iff_eq] at hsame
        rw [hsame]
      · exact hg
    · cases hactive.symm.trans hp
  | «seal» | commit commitTs =>
    simp only [change, bind_eq_ok, ensure_eq_ok] at h
    obtain ⟨_, -, _, -, h⟩ := h
    cases h
    exact ⟨hphase, rfl, hrevision, .inl ⟨rfl, rfl⟩, fun _ _ hg => hg,
      fun _ => ⟨by rintro ⟨⟩, rfl⟩, hvalid⟩
  | abort =>
    cases h
    exact ⟨hphase, rfl, hrevision, .inl ⟨rfl, rfl⟩, fun _ _ hg => hg,
      fun _ => ⟨by rintro ⟨⟩, rfl⟩, hvalid⟩
  | fenceAbort recovery =>
    simp only [change, bind_eq_ok, ensure_eq_ok, required_eq_ok] at h
    obtain ⟨_, -, _, howner, generation, hgeneration, h⟩ := h
    cases h
    exact ⟨hphase, rfl, hrevision, .inr ⟨hgeneration, rfl, howner⟩, fun _ _ hg => hg,
      fun _ => ⟨by rintro ⟨⟩, rfl⟩, hvalid⟩

theorem terminal_of_sameTerminal (h : sameTerminal phase operation = true) :
    phase.terminal = true := by
  cases phase with
  | committed commitTs => rfl
  | aborted => rfl
  | active => cases h
  | preparing => cases h

theorem transition_cases {old : Option RecordV1} {cmd : CommandV1}
    (h : transition old cmd = .ok next) :
    (old = none ∧ next.validate = .ok () ∧ next.txnId = cmd.txnId ∧ next.phase = .active) ∨
    (old = some next ∧ next.phase.terminal = true) ∨
    ∃ record, old = some record ∧ Moved record next := by
  simp only [transition, bind_eq_ok, ensure_eq_ok] at h
  obtain ⟨_, hnil, h⟩ := h
  split at h
  next owner hop =>
    simp only [bind_eq_ok, ensure_eq_ok] at h
    obtain ⟨_, howner, _, -, _, hold, h⟩ := h
    cases h
    refine .inl ⟨hold, ?_, rfl, rfl⟩
    simp only [RecordV1.validate, bind_eq_ok, ensure_eq_ok]
    exact ⟨(), hnil, (), howner, (), by decide, (), .inl trivial, (), Nat.zero_le _, (),
      fun g hg => (by cases hg), rfl⟩
  simp only [bind_eq_ok, required_eq_ok] at h
  obtain ⟨record, rfl, token, -, h⟩ := h
  right
  simp only [advance, bind_eq_ok, ensure_eq_ok] at h
  obtain ⟨_, -, h⟩ := h
  split at h
  next hretry =>
    have hsame : record = next := pure_eq_ok.mp h
    subst hsame
    exact .inl ⟨rfl, terminal_of_sameTerminal hretry.1⟩
  · simp only [bind_eq_ok, ensure_eq_ok, required_eq_ok] at h
    obtain ⟨_, -, _, hphase, revision, hrevision, next', hchange, _, hvalid, h⟩ := h
    cases h
    exact .inr ⟨record, rfl, moved_of_change (by simpa using hphase) hrevision hchange hvalid⟩

/-! ## Records that follow a record -/

/-- A record that may come after another one in the history of a transaction. -/
structure Follows (current incoming : RecordV1) : Prop where
  revision : current.token.revision ≤ incoming.token.revision
  same : incoming.token.revision = current.token.revision → incoming = current
  owner : (incoming.token.generation = current.token.generation ∧
      incoming.token.owner = current.token.owner) ∨
    (checkedSucc current.token.generation = some incoming.token.generation ∧
      incoming.phase = .aborted ∧ incoming.token.owner ≠ current.token.owner)
  participants : ∀ group epoch, current.participants.get? group = some epoch →
    incoming.participants.get? group = some epoch
  sealed : current.phase = .preparing →
    incoming.phase ≠ .active ∧ incoming.participants = current.participants
  decided : current.phase.terminal = true → incoming = current

theorem Follows.refl (record : RecordV1) : Follows record record :=
  ⟨UInt64.le_refl _, fun _ => rfl, .inl ⟨rfl, rfl⟩, fun _ _ h => h,
    fun h => ⟨by rw [h]; nofun, rfl⟩, fun _ => rfl⟩

theorem Follows.moved (h : Follows current old) (hm : Moved old next) : Follows current next := by
  have hlt : current.token.revision < next.token.revision :=
    UInt64.lt_of_le_of_lt h.revision (checkedSucc_gt hm.revision)
  have hundecided : old.phase ≠ .aborted := fun ha => by
    have := hm.undecided
    rw [ha] at this
    cases this
  refine ⟨UInt64.le_of_lt hlt, fun heq => ?_, ?_, fun g e hg => hm.participants g e
    (h.participants g e hg), fun hp => ?_, fun hd => ?_⟩
  · rw [heq] at hlt
    exact absurd hlt (UInt64.lt_irrefl _)
  · rcases h.owner with ⟨hgeneration, howner⟩ | ⟨-, haborted, -⟩
    · rw [← hgeneration, ← howner]
      exact hm.owner
    · exact absurd haborted hundecided
  · obtain ⟨hactive, hsame⟩ := h.sealed hp
    have hpreparing : old.phase = .preparing := by
      have := hm.undecided
      cases hphase : old.phase with
      | preparing => rfl
      | active => exact absurd hphase hactive
      | committed ts =>
        rw [hphase] at this
        cases this
      | aborted => exact absurd hphase hundecided
    rw [← hsame]
    exact hm.sealed hpreparing
  · have := hm.undecided
    rw [h.decided hd, hd] at this
    cases this

theorem validateFollowing_eq_ok :
    validateFollowing current incoming = .ok () ↔ Follows current incoming := by
  simp only [validateFollowing, bind_eq_ok, ensure_eq_ok]
  constructor
  · rintro ⟨_, hrevision, _, hsame, _, -, _, howner, _, hparticipants, _, hsealed, hdecided⟩
    refine ⟨hrevision, hsame, ?_, fun g e hg => hparticipants (g, e) (OrdMap.mem_entries.mpr hg),
      hsealed, hdecided⟩
    split at howner
    next hgeneration => exact .inl ⟨hgeneration, ensure_eq_ok.mp howner⟩
    · exact .inr (ensure_eq_ok.mp howner)
  · intro h
    refine ⟨(), h.revision, (), h.same, (), ?_, (), ?_, (),
      fun e he => h.participants e.1 e.2 (OrdMap.mem_entries.mp he), (), h.sealed, h.decided⟩
    · rcases h.owner with ⟨hgeneration, -⟩ | ⟨hgeneration, -⟩
      · rw [hgeneration]
        exact UInt64.le_refl _
      · exact UInt64.le_of_lt (checkedSucc_gt hgeneration)
    rcases h.owner with ⟨hgeneration, howner⟩ | hfence
    · rw [if_pos hgeneration]
      exact ensure_eq_ok.mpr howner
    · rw [if_neg fun heq => ?_]
      · exact ensure_eq_ok.mpr hfence
      · have := checkedSucc_gt hfence.1
        rw [heq] at this
        exact UInt64.lt_irrefl _ this

end Authority

end NodusDb.Raft
