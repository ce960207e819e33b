import NodusDb.Lib.Run
import NodusDb.Raft.Control

/-!
# The upgrade authority

The meta group keeps one record about cluster upgrades. A replica that is behind may receive a later
record in a snapshot, where a validator compares it with its own.

* `levels_activate_in_order`: levels are raised one by one, with the support of every member.
* `snapshot_accepted_iff`: when the validator accepts a later record.
* `finalized_rejects_next_upgrade`: a replica at a finalized level rejects the next upgrade.
-/

namespace NodusDb.Raft.Upgrade

open Result

/-! ## Records -/

abbrev NodeId := Fin (2 ^ 64)

structure MembershipLogId where
  term : UInt64
  nodeId : NodeId
  index : UInt64
  deriving DecidableEq

/-- A membership: its configurations, of which a joint one has two, and the
address of every node. -/
structure StoredMembership where
  logId : Option MembershipLogId
  configs : List (List NodeId)
  nodes : OrdMap NodeId Bytes
  deriving DecidableEq

instance : Inhabited StoredMembership := ⟨⟨none, [], .empty⟩⟩

structure CapabilityV1 where
  version : UInt16
  nodeId : NodeId
  challenge : Uuid
  binaryVersion : Bytes
  authorityVersion : UInt16
  snapshotVersion : UInt16
  readyForFinalize : Bool
  admissionVersion : UInt16
  migrationVersion : Option UInt64
  writeBatchVersion : Option UInt64
  txnAuthorityVersion : Option UInt64
  deriving DecidableEq

inductive Phase
  | idle
  | rollingNodes
  | readyToFinalize
  | finalized
  deriving DecidableEq, Repr

structure RecordV1 where
  version : UInt16
  revision : UInt64
  phase : Phase
  clusterVersion : UInt64
  session : Uuid
  membership : StoredMembership
  reports : OrdMap NodeId CapabilityV1
  deriving DecidableEq

/-- `RecordV1::default`. -/
instance : Inhabited RecordV1 := ⟨⟨1, 0, .idle, 1, 0, default, .empty⟩⟩

def maxMembers : Nat := 256
def migrationLevel : UInt64 := 3
def migrationVersion : UInt64 := 4
def writeBatchLevel : UInt64 := 4
def writeBatchVersion : UInt64 := 4
def txnAuthorityLevel : UInt64 := 5
def txnAuthorityVersion : UInt64 := 1
def maxClusterVersion : UInt64 := txnAuthorityLevel
def maxRecordBytes : Nat := 256 * 1024

/-! ## The stored form -/

def MembershipLogId.json (l : MembershipLogId) : Bytes :=
  jsonObject [(ascii "leader_id",
      jsonObject [(ascii "term", jsonU64 l.term), (ascii "node_id", jsonNumber l.nodeId.val)]),
    (ascii "index", jsonU64 l.index)]

def StoredMembership.json (m : StoredMembership) : Bytes :=
  jsonObject [(ascii "log_id", m.logId.elim (ascii "null") MembershipLogId.json),
    (ascii "membership", jsonObject [
      (ascii "configs", jsonArray (m.configs.map fun c => jsonArray (c.map fun n => jsonNumber n.val))),
      (ascii "nodes", jsonObject (m.nodes.entries.map fun e =>
        (jsonNumber e.1.val, jsonObject [(ascii "addr", jsonString e.2)])))])]

def CapabilityV1.json (r : CapabilityV1) : Bytes :=
  jsonObject ([(ascii "version", jsonNumber r.version.toNat),
    (ascii "node_id", jsonNumber r.nodeId.val), (ascii "challenge", jsonUuid r.challenge),
    (ascii "binary_version", jsonString r.binaryVersion),
    (ascii "authority_version", jsonNumber r.authorityVersion.toNat),
    (ascii "snapshot_version", jsonNumber r.snapshotVersion.toNat),
    (ascii "ready_for_finalize", jsonBool r.readyForFinalize)] ++
    (if r.admissionVersion = 0 then []
      else [(ascii "admission_version", jsonNumber r.admissionVersion.toNat)]) ++
    (r.migrationVersion.toList.map fun n => (ascii "migration_version", jsonU64 n)) ++
    (r.writeBatchVersion.toList.map fun n => (ascii "write_batch_version", jsonU64 n)) ++
    r.txnAuthorityVersion.toList.map fun n => (ascii "txn_authority_version", jsonU64 n))

def Phase.json : Phase → Bytes
  | idle => jsonString (ascii "Idle")
  | rollingNodes => jsonString (ascii "RollingNodes")
  | readyToFinalize => jsonString (ascii "ReadyToFinalize")
  | finalized => jsonString (ascii "Finalized")

def encode (r : RecordV1) : Bytes :=
  jsonObject [(ascii "version", jsonNumber r.version.toNat), (ascii "revision", jsonU64 r.revision),
    (ascii "phase", r.phase.json), (ascii "cluster_version", jsonU64 r.clusterVersion),
    (ascii "session", jsonUuid r.session), (ascii "membership", r.membership.json),
    (ascii "reports", jsonObject (r.reports.entries.map fun e =>
      (jsonNumber e.1.val, e.2.json)))]

/-! ## Checks -/

def CapabilityV1.validate (r : CapabilityV1) (node : NodeId) (challenge : Uuid) : Result Unit := do
  ensure (r.version = 1 ∧ r.nodeId = node ∧ r.challenge = challenge)
    "capability identity or challenge mismatch"
  ensure (r.authorityVersion = 1 ∧ 2 ≤ r.snapshotVersion)
    "node does not support upgrade authority and snapshot v2"
  ensure (r.binaryVersion ≠ [] ∧ r.binaryVersion.length ≤ 128) "invalid binary version report"

def requireTxnReader (r : CapabilityV1) : Result Unit :=
  ensure (r.txnAuthorityVersion.any fun v => txnAuthorityVersion ≤ v)
    "transaction-authority-v5 requires an authenticated transaction protocol version 1 reader on every voter and learner"

def members (m : StoredMembership) : Result (OrdMap NodeId Bytes) := do
  ensure (m.nodes.size ≤ maxMembers ∧ ∀ a ∈ m.nodes.values, a ≠ [] ∧ a.length ≤ 512)
    "invalid or excessive upgrade membership"
  pure m.nodes

def validateReport (members : OrdMap NodeId Bytes) (session : Uuid) (e : NodeId × CapabilityV1) :
    Result Unit := do
  ensure (members.contains e.1) "unknown upgrade member"
  e.2.validate e.1 session

def validatePhase (r : RecordV1) (members : OrdMap NodeId Bytes) : Result Unit :=
  if r.phase = .idle then
    ensure (r.clusterVersion = 1 ∧ members.size = 0 ∧ r.reports.size = 0 ∧ r.session.isNil)
      "invalid idle authority"
  else
    ensure (members.size ≠ 0 ∧ !r.session.isNil) "active authority has no membership/session"

def RecordV1.validate (r : RecordV1) : Result Unit := do
  ensure (r.version = 1 ∧ 1 ≤ r.clusterVersion ∧ r.clusterVersion ≤ maxClusterVersion)
    "unsupported upgrade authority version"
  let members ← members r.membership
  ensure (r.reports.size ≤ members.size) "unknown upgrade reports"
  r.reports.entries.forM (validateReport members r.session)
  validatePhase r members
  ensure (r.phase = .finalized → ∀ report ∈ r.reports.values, report.readyForFinalize)
    "finalized authority lacks preflight evidence"
  ensure (r.phase = .readyToFinalize ∨ r.phase = .finalized →
      members.size ≠ 0 ∧ r.reports.size = members.size) "incomplete upgrade reports"
  ensure (r.phase ≠ .finalized ∨ 2 ≤ r.clusterVersion) "inconsistent finalized version"

def decode (r : RecordV1) : Result RecordV1 := do
  ensure ((encode r).length ≤ maxRecordBytes) "upgrade authority record too large"
  r.validate
  pure r

def read (stored : Option RecordV1) : Result RecordV1 :=
  match stored with
  | none => pure default
  | some r => decode r

/-! ## Commands -/

inductive OperationV1
  | start
  | refresh
  | finalize
  | rollback
  deriving DecidableEq, Repr

structure CommandV1 where
  expectedRevision : UInt64
  membership : StoredMembership
  session : Uuid
  operation : OperationV1
  reports : List CapabilityV1
  targetLevel : Option UInt64
  deriving DecidableEq

def CapabilityV1.base (r : CapabilityV1) : CapabilityV1 :=
  { r with
    admissionVersion := 0
    migrationVersion := none
    writeBatchVersion := none
    txnAuthorityVersion := none }

/-- Check one report of a command and add it. -/
def collectReport (roster : OrdMap NodeId Bytes) (session : Uuid) (targetLevel : UInt64)
    (reports : OrdMap NodeId CapabilityV1) (report : CapabilityV1) :
    Result (OrdMap NodeId CapabilityV1) := do
  ensure (roster.contains report.nodeId) "unknown capability node"
  report.validate report.nodeId session
  ensure (migrationLevel ≤ targetLevel → migrationVersion ≤ report.migrationVersion.getD 0)
    "migration-v3 requires a migration version 4 report from every voter and learner"
  ensure (writeBatchLevel ≤ targetLevel → writeBatchVersion ≤ report.writeBatchVersion.getD 0)
    "write-batching-v4 requires a write batch version 4 report from every voter and learner"
  (if txnAuthorityLevel ≤ targetLevel then requireTxnReader report else pure ())
  ensure (¬ reports.contains report.nodeId) "duplicate capability report"
  pure (reports.insert report.nodeId report.base)

def nextPhase (old : RecordV1) (operation : OperationV1) (current : StoredMembership) :
    Result Phase :=
  match operation with
  | .start => do
    ensure (old.phase = .idle ∨ old.phase = .finalized) "upgrade already active"
    pure .rollingNodes
  | .refresh => do
    ensure (old.phase = .rollingNodes ∨ old.phase = .readyToFinalize) "no active upgrade"
    ensure (old.membership = current) "upgrade membership changed; roll back and restart"
    pure .readyToFinalize
  | .finalize => do
    ensure (old.phase = .readyToFinalize) "upgrade is not ready to finalize"
    ensure (old.membership = current) "upgrade membership changed; roll back and restart"
    pure .finalized
  | .rollback => .error "unreachable"

def advance (old : RecordV1) (cmd : CommandV1) (current : StoredMembership)
    (roster : OrdMap NodeId Bytes) (index : UInt64) : Result RecordV1 := do
  ensure (old.phase = .finalized → cmd.operation = .start)
    "upgrade finalized; rollback is closed and membership is frozen"
  ensure (old.phase = .finalized → old.clusterVersion < maxClusterVersion)
    "cluster is already at the highest compatibility level"
  let targetLevel := old.clusterVersion + 1
  ensure (targetLevel ≤ maxClusterVersion) "unsupported upgrade target"
  ensure (cmd.targetLevel = if txnAuthorityLevel ≤ targetLevel then some targetLevel else none)
    "upgrade command target does not match the next compatibility level"
  ensure (!cmd.session.isNil ∧ cmd.session ≠ old.session) "stale capability challenge"
  ensure (cmd.reports.length = roster.size) "every voter and learner must report"
  let reports ← cmd.reports.foldlM (collectReport roster cmd.session targetLevel) .empty
  ensure (cmd.operation = .start ∨ cmd.operation = .finalize →
      ∀ report ∈ reports.values, report.readyForFinalize)
    "upgrade preflight requires drained intents/2PC decisions and reconciled migration records on every node"
  let phase ← nextPhase old cmd.operation current
  pure {
    version := 1
    revision := index
    clusterVersion := if phase = .finalized then targetLevel else old.clusterVersion
    phase := phase
    membership := current
    reports := reports
    session := cmd.session }

def transition (old : RecordV1) (cmd : CommandV1) (current : StoredMembership) (index : UInt64) :
    Result RecordV1 := do
  ensure (old.revision = cmd.expectedRevision) "stale upgrade revision; refresh status"
  ensure (cmd.membership = current) "membership changed during upgrade probe"
  ensure (current.configs.length = 1) "upgrade requires stable membership"
  let roster ← members current
  ensure (roster.size ≠ 0) "upgrade requires membership"
  if cmd.operation = .rollback then do
    -- A rollback does not keep the level that earlier upgrades had finalized.
    ensure (old.clusterVersion < writeBatchLevel ∧ old.phase ≠ .finalized)
      "upgrade finalized; rollback is closed and membership is frozen"
    pure { (default : RecordV1) with revision := index }
  else advance old cmd current roster index

/-- The ledger of member admissions, as far as upgrades read it. -/
structure Ledger where
  pending : Bool
  deriving DecidableEq

/-- The rejection of a command because of the admission ledger. -/
def ledgerRejection (ledger : Option Ledger) : OperationV1 → Option String
  | .start =>
    if ledger.any (·.pending) then some "cannot start upgrade while member admission is pending"
    else none
  | .rollback =>
    if ledger.isSome then some "cannot rollback upgrade while an admission ledger exists" else none
  | .refresh | .finalize => none

/-- Apply a command to the record under the authority's key. -/
def apply (stored : Option RecordV1) (ledger : Option Ledger) (isMeta : Bool)
    (current : StoredMembership) (cmd : CommandV1) (index : UInt64) :
    Result (Option RecordV1 × ShardResponse) := do
  ensure isMeta "upgrade authority belongs to the meta group"
  let old ← read stored
  if index ≤ old.revision then pure (stored, accepted)
  else
    match ledgerRejection ledger cmd.operation with
    | some error => pure (stored, reject error)
    | none =>
      match transition old cmd current index with
      | .error error => pure (stored, reject error)
      | .ok next => pure (some next, accepted)

/-- Check a record that a snapshot brings. The index is that of the snapshot's
last entry, when the snapshot says it. -/
def validateSnapshot (stored : Option RecordV1) (incoming : RecordV1)
    (lastIndex : Option (Option UInt64)) : Result Unit := do
  let next ← decode incoming
  let old ← read stored
  ensure (old.revision ≤ next.revision ∧ old.clusterVersion ≤ next.clusterVersion)
    "snapshot rolls back upgrade authority"
  ensure (old.phase = .finalized ∨ next.revision = old.revision → next = old)
    "snapshot changes immutable upgrade authority"
  ensure (∀ last ∈ lastIndex, last.any fun i => next.revision ≤ i)
    "upgrade revision exceeds snapshot applied pointer"

/-! ## Records that commands make -/

/-- The node of a report can read what a level writes. -/
def Supports (r : CapabilityV1) (level : UInt64) : Prop :=
  r.authorityVersion = 1 ∧ 2 ≤ r.snapshotVersion ∧
    (migrationLevel ≤ level → migrationVersion ≤ r.migrationVersion.getD 0) ∧
    (writeBatchLevel ≤ level → writeBatchVersion ≤ r.writeBatchVersion.getD 0) ∧
    (txnAuthorityLevel ≤ level → r.txnAuthorityVersion.any fun v => txnAuthorityVersion ≤ v)

/-- What the collected reports are: one of every node of the roster that was
listed, each valid for the session and from a node that supports the level. -/
theorem collect_spec {roster : OrdMap NodeId Bytes} {session : Uuid} {level : UInt64}
    {listed : List CapabilityV1} {acc out : OrdMap NodeId CapabilityV1}
    (h : listed.foldlM (collectReport roster session level) acc = .ok out)
    (hacc : ∀ e ∈ acc.entries, validateReport roster session e = .ok ()) :
    out.size = acc.size + listed.length ∧
      (∀ e ∈ out.entries, validateReport roster session e = .ok ()) ∧
      ∀ e ∈ out.entries, e ∈ acc.entries ∨ ∃ r ∈ listed, r.nodeId = e.1 ∧ Supports r level := by
  induction listed generalizing acc with
  | nil =>
    cases h
    exact ⟨rfl, hacc, fun e he => .inl he⟩
  | cons report listed ih =>
    simp only [List.foldlM_cons, bind_eq_ok] at h
    obtain ⟨acc', hone, hrest⟩ := h
    simp only [collectReport, bind_eq_ok, ensure_eq_ok] at hone
    obtain ⟨_, hnode, _, hvalid, _, hmigration, _, hbatch, _, htxn, _, hnew, hone⟩ := hone
    cases hone
    have hsupports : Supports report level := by
      simp only [CapabilityV1.validate, bind_eq_ok, ensure_eq_ok] at hvalid
      obtain ⟨_, -, _, hreader, -⟩ := hvalid
      refine ⟨hreader.1, hreader.2, hmigration, hbatch, fun hlevel => ?_⟩
      rw [if_pos hlevel, requireTxnReader, ensure_eq_ok] at htxn
      exact htxn
    have hfresh : acc.get? report.nodeId = none := by
      rw [OrdMap.contains, Option.not_isSome_iff_eq_none] at hnew
      exact hnew
    obtain ⟨hsize, hall, hfrom⟩ := ih hrest fun e he => by
      rcases OrdMap.mem_put he with rfl | he
      · simp only [validateReport, bind_eq_ok, ensure_eq_ok]
        exact ⟨(), hnode, hvalid⟩
      · exact hacc e he
    refine ⟨?_, hall, fun e he => ?_⟩
    · rw [hsize, OrdMap.size_insert hfresh, List.length_cons, Nat.add_assoc, Nat.add_comm 1]
    rcases hfrom e he with he | ⟨r, hr, hsupport⟩
    · rcases OrdMap.mem_put he with rfl | he
      · exact .inr ⟨report, List.mem_cons_self, rfl, hsupports⟩
      · exact .inl he
    · exact .inr ⟨r, List.mem_cons_of_mem _ hr, hsupport⟩

theorem validate_default (revision : UInt64) :
    RecordV1.validate { (default : RecordV1) with revision := revision } = .ok () := rfl

theorem level_of_validate {r : RecordV1} (h : r.validate = .ok ()) :
    1 ≤ r.clusterVersion ∧ r.clusterVersion ≤ maxClusterVersion := by
  simp only [RecordV1.validate, bind_eq_ok, ensure_eq_ok] at h
  obtain ⟨_, hlevel, -⟩ := h
  exact hlevel.2

/-- What a command does to the level: it goes back to 1 in a rollback, or it stays, or it is
raised by one, with a report from every member whose node supports the next level. -/
def LevelStep (old : RecordV1) (cmd : CommandV1) (next : RecordV1) : Prop :=
  (cmd.operation = .rollback ∧ next.clusterVersion = 1) ∨
    next.clusterVersion = old.clusterVersion ∨
    (next.clusterVersion = old.clusterVersion + 1 ∧ ∀ node ∈ next.membership.nodes.keys,
      ∃ report ∈ cmd.reports, report.nodeId = node ∧ Supports report next.clusterVersion)

theorem transition_valid {old next : RecordV1} {index : UInt64} (hold : old.validate = .ok ())
    (h : transition old cmd current index = .ok next) :
    next.validate = .ok () ∧ next.revision = index ∧ LevelStep old cmd next := by
  simp only [transition, bind_eq_ok, ensure_eq_ok] at h
  obtain ⟨_, -, _, -, _, -, roster, hroster, _, hnonempty, h⟩ := h
  split at h
  · simp only [bind_eq_ok, ensure_eq_ok] at h
    obtain ⟨_, -, h⟩ := h
    cases h
    exact ⟨validate_default index, rfl, .inl ⟨‹_›, rfl⟩⟩
  simp only [advance, bind_eq_ok, ensure_eq_ok] at h
  obtain ⟨_, -, _, -, _, hlevel, _, -, _, hsession, _, hcount, reports, hreports, _, hready, phase,
    hphase, h⟩ := h
  cases h
  obtain ⟨hsize, hall, hfrom⟩ := collect_spec hreports (by simp [OrdMap.empty])
  have hcount' : reports.size = roster.size := by rw [hsize, hcount, OrdMap.size_empty, Nat.zero_add]
  have hactive : phase ≠ .idle ∧ (phase = .finalized → cmd.operation = .finalize) := by
    cases hop : cmd.operation with
    | rollback => contradiction
    | start =>
      simp only [hop, nextPhase, bind_eq_ok, ensure_eq_ok] at hphase
      obtain ⟨_, -, hphase⟩ := hphase
      cases hphase
      exact ⟨by rintro ⟨⟩, by rintro ⟨⟩⟩
    | refresh =>
      simp only [hop, nextPhase, bind_eq_ok, ensure_eq_ok] at hphase
      obtain ⟨_, -, _, -, hphase⟩ := hphase
      cases hphase
      exact ⟨by rintro ⟨⟩, by rintro ⟨⟩⟩
    | finalize =>
      simp only [hop, nextPhase, bind_eq_ok, ensure_eq_ok] at hphase
      obtain ⟨_, -, _, -, hphase⟩ := hphase
      cases hphase
      exact ⟨by rintro ⟨⟩, fun _ => rfl⟩
  obtain ⟨hpos, hmax⟩ := level_of_validate hold
  have hfinal : phase = .finalized → 2 ≤ old.clusterVersion + 1 := fun _ => by
    rw [maxClusterVersion, txnAuthorityLevel] at hmax
    grind
  have hlevels : LevelStep old cmd ⟨1, index, phase,
      if phase = .finalized then old.clusterVersion + 1 else old.clusterVersion, cmd.session,
      current, reports⟩ := by
    by_cases hf : phase = .finalized
    · refine .inr (.inr ⟨if_pos hf, fun node hnode => ?_⟩)
      simp only [members, bind_eq_ok, pure_eq_ok] at hroster
      obtain ⟨_, -, rfl⟩ := hroster
      have hsub : ∀ k ∈ reports.keys, k ∈ current.nodes.keys := by
        intro k hk
        obtain ⟨e, he, rfl⟩ := List.mem_map.mp hk
        have hreport := hall e he
        simp only [validateReport, bind_eq_ok, ensure_eq_ok] at hreport
        obtain ⟨_, hknown, -⟩ := hreport
        exact OrdMap.mem_keys.mpr (Option.isSome_iff_ne_none.mp hknown)
      obtain ⟨e, he, rfl⟩ := List.mem_map.mp (OrdMap.keys_subset_of_size hsub hcount'.ge hnode)
      obtain ⟨r, hr, hid, hsupports⟩ := (hfrom e he).resolve_left List.not_mem_nil
      exact ⟨r, hr, hid, (if_pos hf).symm ▸ hsupports⟩
    · exact .inr (.inl (if_neg hf))
  refine ⟨?_, rfl, hlevels⟩
  simp only [RecordV1.validate, validatePhase, bind_eq_ok, ensure_eq_ok,
    forM_eq_ok, if_neg hactive.1]
  refine ⟨(), ⟨trivial, ?_, ?_⟩, roster, hroster, (), hcount'.le, (), hall, (),
    ⟨hnonempty, hsession.1⟩, (), fun hf => hready (.inr (hactive.2 hf)), (),
    fun _ => ⟨hnonempty, hcount'⟩, ?_⟩
  · split
    next hf => exact UInt64.le_trans (by decide) (hfinal hf)
    · exact hpos
  · split
    · exact hlevel
    · exact hmax
  · by_cases hf : phase = .finalized
    · right
      rw [if_pos hf]
      exact hfinal hf
    · exact .inl hf

/-! ## Runs -/

/-- An upgrade command in the log of the meta group, with what it finds there. -/
structure Label where
  index : UInt64
  cmd : CommandV1
  current : StoredMembership
  ledger : Option Ledger
  response : ShardResponse
  deriving DecidableEq

/-- Apply one command to the record that is stored. -/
def next (stored : Option RecordV1) (l : Label) : Option (Option RecordV1) :=
  match apply stored l.ledger true l.current l.cmd l.index with
  | .ok (stored', response) => if response = l.response then some stored' else none
  | .error _ => none

def Step (stored : Option RecordV1) (l : Label) (stored' : Option RecordV1) : Prop :=
  next stored l = some stored'

/-- The record that is stored, or the one an authority starts with. -/
def recordOf (stored : Option RecordV1) : RecordV1 := stored.getD default

variable {stored stored' : Option RecordV1} {l : Label}

theorem decode_eq_ok :
    decode r = .ok r' ↔ (encode r).length ≤ maxRecordBytes ∧ r.validate = .ok () ∧ r = r' := by
  simp only [decode, bind_eq_ok, ensure_eq_ok, pure_eq_ok]
  constructor
  · rintro ⟨_, hsize, _, hvalid, heq⟩
    exact ⟨hsize, hvalid, heq⟩
  · rintro ⟨hsize, hvalid, heq⟩
    exact ⟨(), hsize, (), hvalid, heq⟩

theorem read_ok (h : read stored = .ok old) : old = recordOf stored ∧ old.validate = .ok () := by
  cases stored with
  | none =>
    cases h
    exact ⟨rfl, validate_default 0⟩
  | some r =>
    obtain ⟨-, hvalid, rfl⟩ := decode_eq_ok.mp h
    exact ⟨rfl, hvalid⟩

theorem step_cases (h : Step stored l stored') :
    read stored = .ok (recordOf stored) ∧ (stored' = stored ∨
      ∃ r, stored' = some r ∧ r.validate = .ok () ∧ (recordOf stored).revision < r.revision ∧
        l.response = accepted ∧ LevelStep (recordOf stored) l.cmd r) := by
  unfold Step next at h
  split at h
  next stored₁ response happly =>
    split at h
    next hresponse =>
      cases h
      simp only [apply, bind_eq_ok, ensure_eq_ok] at happly
      obtain ⟨_, -, old, hread, happly⟩ := happly
      obtain ⟨rfl, hvalid⟩ := read_ok hread
      refine ⟨hread, ?_⟩
      split at happly
      · cases happly
        exact .inl rfl
      next hindex =>
      split at happly
      · cases happly
        exact .inl rfl
      split at happly
      · cases happly
        exact .inl rfl
      next r htransition =>
      cases happly
      obtain ⟨hr, hrevision, hlevels⟩ := transition_valid hvalid htransition
      exact .inr ⟨r, rfl, hr, by rw [hrevision]; exact UInt64.not_le.mp hindex, hresponse.symm,
        hlevels⟩
    · cases h
  · cases h

theorem valid_of_run (h : Run Step none before stored) : (recordOf stored).validate = .ok () := by
  induction h with
  | nil => exact validate_default 0
  | snoc _ hstep ih =>
    rcases (step_cases hstep).2 with rfl | ⟨r, rfl, hvalid, -⟩
    · exact ih
    · exact hvalid

/-- The record is the same at the end of a run, or it has a later revision; then
the first record could be read. -/
theorem revision_of_run (h : Run Step stored after stored') :
    stored' = stored ∨ (read stored = .ok (recordOf stored) ∧
      (recordOf stored).revision < (recordOf stored').revision) := by
  induction h with
  | nil => exact .inl rfl
  | snoc _ hstep ih =>
    obtain ⟨hread, hnext⟩ := step_cases hstep
    rcases ih with rfl | ⟨hread₀, hlt⟩
    · rcases hnext with rfl | ⟨r, rfl, -, hrevision, -⟩
      · exact .inl rfl
      · exact .inr ⟨hread, hrevision⟩
    · rcases hnext with rfl | ⟨r, rfl, -, hrevision, -⟩
      · exact .inr ⟨hread₀, hlt⟩
      · exact .inr ⟨hread₀, UInt64.lt_trans hlt hrevision⟩

/-- Along every run records are valid, a command raises the level by at most one and with the
support of every member, and only a rollback that is accepted lowers it. -/
theorem levels_activate_in_order {before : List Label} (hrun : Run Step none before stored)
    (hstep : Step stored l stored') :
    (recordOf stored').validate = .ok () ∧
      (recordOf stored').clusterVersion.toNat ≤ (recordOf stored).clusterVersion.toNat + 1 ∧
      ((recordOf stored).clusterVersion < (recordOf stored').clusterVersion →
        ∀ node ∈ (recordOf stored').membership.nodes.keys, ∃ report ∈ l.cmd.reports,
          report.nodeId = node ∧ Supports report (recordOf stored').clusterVersion) ∧
      ((recordOf stored').clusterVersion < (recordOf stored).clusterVersion →
        l.cmd.operation = .rollback ∧ l.response = accepted) := by
  have hvalid := valid_of_run hrun
  obtain ⟨hpos, hmax⟩ := level_of_validate hvalid
  rcases (step_cases hstep).2 with rfl | ⟨r, rfl, hr, -, haccepted, hlevels⟩
  · exact ⟨hvalid, Nat.le_succ _, fun h => absurd h (UInt64.lt_irrefl _),
      fun h => absurd h (UInt64.lt_irrefl _)⟩
  show r.validate = .ok () ∧ r.clusterVersion.toNat ≤ _ ∧ (_ < r.clusterVersion → _) ∧
    (r.clusterVersion < _ → _)
  rw [maxClusterVersion, txnAuthorityLevel] at hmax
  rcases hlevels with ⟨hop, hone⟩ | hsame | ⟨hnext, hsupport⟩
  · refine ⟨hr, ?_, fun h => ?_, fun _ => ⟨hop, haccepted⟩⟩
    · rw [hone]
      exact Nat.succ_le_succ (Nat.zero_le _)
    · rw [hone] at h
      exact absurd h (UInt64.not_lt.mpr hpos)
  · rw [hsame]
    exact ⟨hr, Nat.le_succ _, fun h => absurd h (UInt64.lt_irrefl _),
      fun h => absurd h (UInt64.lt_irrefl _)⟩
  · refine ⟨hr, ?_, fun _ => hsupport, fun h => ?_⟩
    · rw [hnext, UInt64.toNat_add]
      exact Nat.mod_le _ _
    · rw [hnext] at h
      grind

/-- A replica that has the record of an earlier point of the log accepts the
record of a later point exactly when the later record can be read back, its level
is not lower, and the earlier record is not finalized or still the same. -/
theorem snapshot_accepted_iff {before after : List Label} {later : RecordV1}
    {lastIndex : Option (Option UInt64)} (hbefore : Run Step none before stored)
    (hafter : Run Step stored after (some later))
    (hlast : ∀ last ∈ lastIndex, last.any (fun i => later.revision ≤ i) = true) :
    validateSnapshot stored later lastIndex = .ok () ↔
      (encode later).length ≤ maxRecordBytes ∧
        (recordOf stored).clusterVersion ≤ later.clusterVersion ∧
        ((recordOf stored).phase = .finalized → later = recordOf stored) := by
  have hvalid : later.validate = .ok () := valid_of_run (hbefore.append hafter)
  simp only [validateSnapshot, bind_eq_ok, ensure_eq_ok, decode_eq_ok]
  constructor
  · rintro ⟨_, ⟨hsize, -, rfl⟩, old, hread, _, ⟨-, hlevel⟩, _, hsame, -⟩
    obtain ⟨rfl, -⟩ := read_ok hread
    exact ⟨hsize, hlevel, fun hf => hsame (.inl hf)⟩
  · rintro ⟨hsize, hlevel, hfinalized⟩
    have hread : read stored = .ok (recordOf stored) ∧
        (recordOf stored).revision ≤ later.revision ∧
        (later.revision = (recordOf stored).revision → later = recordOf stored) := by
      rcases revision_of_run hafter with rfl | ⟨hread, hlt⟩
      · exact ⟨decode_eq_ok.mpr ⟨hsize, hvalid, rfl⟩, UInt64.le_refl _, fun _ => rfl⟩
      refine ⟨hread, UInt64.le_of_lt hlt, fun heq => ?_⟩
      have hlt' : (recordOf stored).revision < later.revision := hlt
      rw [heq] at hlt'
      exact absurd hlt' (UInt64.lt_irrefl _)
    exact ⟨later, ⟨hsize, hvalid, rfl⟩, _, hread.1, (), ⟨hread.2.1, hlevel⟩, (),
      fun h => h.elim hfinalized hread.2.2, hlast⟩

/-! ## A sequence of upgrades -/

def soloMembership : StoredMembership := ⟨none, [[1]], OrdMap.empty.insert 1 (ascii "a:1")⟩

def soloReport (session : Uuid) : CapabilityV1 :=
  ⟨1, 1, session, ascii "0.1.0", 1, 2, true, 1, some 4, some 4, some 1⟩

def soloLabel (index : UInt64) (revision : UInt64) (operation : OperationV1) : Label :=
  ⟨index, ⟨revision, soloMembership, Fin.ofNat _ index.toNat, operation,
    [soloReport (Fin.ofNat _ index.toNat)], none⟩, soloMembership, none, accepted⟩

def firstUpgrade : List Label :=
  [soloLabel 1 0 .start, soloLabel 2 1 .refresh, soloLabel 3 2 .finalize]

/-- The node reports when the upgrade is finalized, and level 2 is active. -/
theorem levels_activate_firstUpgrade :
    ∃ stored later, Run Step none [soloLabel 1 0 .start, soloLabel 2 1 .refresh] stored ∧
      Step stored (soloLabel 3 2 .finalize) (some later) ∧ later.clusterVersion = 2 ∧
      ∃ report ∈ (soloLabel 3 2 .finalize).cmd.reports, report.nodeId = 1 ∧ Supports report 2 := by
  obtain ⟨stored, hs, t, ht, later, rfl, hlevel, hlt, hmember⟩ :
      ∃ stored, exec next none [soloLabel 1 0 .start, soloLabel 2 1 .refresh] = some stored ∧
        ∃ t, next stored (soloLabel 3 2 .finalize) = some t ∧ ∃ later, t = some later ∧
          later.clusterVersion = 2 ∧ (recordOf stored).clusterVersion < later.clusterVersion ∧
          1 ∈ later.membership.nodes.keys := by
    decide +kernel
  have hsupport := (levels_activate_in_order (run_of_exec hs) ht).2.2.1 hlt 1 hmember
  exact ⟨stored, later, run_of_exec hs, ht, hlevel, hlevel ▸ hsupport⟩

/-- A replica that saw the start of an upgrade accepts its next phase. -/
theorem snapshot_accepted_refresh :
    ∃ stored later, Run Step none [soloLabel 1 0 .start] stored ∧
      Run Step stored [soloLabel 2 1 .refresh] (some later) ∧
      validateSnapshot stored later none = .ok () := by
  obtain ⟨stored, hs, t, ht, later, rfl, hsize, hlevel, hphase⟩ :
      ∃ stored, next none (soloLabel 1 0 .start) = some stored ∧
        ∃ t, next stored (soloLabel 2 1 .refresh) = some t ∧ ∃ later, t = some later ∧
          (encode later).length ≤ maxRecordBytes ∧
          (recordOf stored).clusterVersion ≤ later.clusterVersion ∧
          (recordOf stored).phase ≠ .finalized := by
    decide +kernel
  refine ⟨stored, later, .single hs, .single ht, ?_⟩
  exact (snapshot_accepted_iff (.single hs) (.single ht) (by simp)).mpr
    ⟨hsize, hlevel, fun hf => absurd hf hphase⟩

/-- A replica at level 2 rejects the upgrade to level 3 that was started since,
and a replica in that upgrade rejects its rollback, which goes back to level 1. -/
theorem finalized_rejects_next_upgrade :
    ∃ finalized rolling rolledBack, Run Step none firstUpgrade (some finalized) ∧
      Run Step (some finalized) [soloLabel 4 3 .start] (some rolling) ∧
      Run Step (some rolling) [soloLabel 5 4 .rollback] (some rolledBack) ∧
      validateSnapshot (some finalized) rolling none =
        .error "snapshot changes immutable upgrade authority" ∧
      validateSnapshot (some rolling) rolledBack none =
        .error "snapshot rolls back upgrade authority" := by
  obtain ⟨s, hs, t, ht, u, hu, hsome, hrejected⟩ :
      ∃ s, exec next none firstUpgrade = some s ∧ ∃ t, next s (soloLabel 4 3 .start) = some t ∧
        ∃ u, next t (soloLabel 5 4 .rollback) = some u ∧ (s.isSome ∧ t.isSome ∧ u.isSome) ∧
          validateSnapshot s (recordOf t) none =
            .error "snapshot changes immutable upgrade authority" ∧
          validateSnapshot t (recordOf u) none =
            .error "snapshot rolls back upgrade authority" := by
    decide +kernel
  simp only [Option.isSome_iff_exists] at hsome
  obtain ⟨⟨finalized, rfl⟩, ⟨rolling, rfl⟩, ⟨rolledBack, rfl⟩⟩ := hsome
  exact ⟨finalized, rolling, rolledBack, run_of_exec hs, .single ht, .single hu, hrejected⟩

end NodusDb.Raft.Upgrade
