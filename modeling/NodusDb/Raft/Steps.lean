import NodusDb.Raft.Apply

/-!
# What commands do to keys

A command is made of a few acts: a mutation of user data, records published at the log index, and
the commit of a participant. What the acts do not touch stays as it is (`Acts.view_control`), and
`Group.apply_acts` says which acts a command is made of.
-/

namespace NodusDb.Raft

open Result List Migration

/-! ## Mutations -/

inductive Mutation
  | write (txn : TxnId) (ops : List (IntentOperation Value))
  | replace (txn : TxnId) (key : Bytes) (replacement : IntentReplacement Value)
  | commit (commits : List (TxnId × Nat))
  | abort (txn : TxnId)

namespace Mutation

def run (kv : Kv) : Mutation → Kv
  | write txn ops => kv.replayAll txn ops 0
  | replace txn key replacement => (kv.replaceIntent txn key replacement 0).1
  | commit commits => kv.commitBatch commits
  | abort txn => kv.abort txn

def keys : Mutation → List Bytes
  | write _ ops => ops.map (·.key)
  | replace _ key _ => [key]
  | commit _ | abort _ => []

/-- Only an abort may take place in a closed group. -/
def Allowed (kv : Kv) (m : Mutation) : Prop :=
  (∃ txn, m = .abort txn) ∨ ∃ epoch, Open kv epoch

def txns : Mutation → List TxnId
  | write txn _ | replace txn _ _ | abort txn => [txn]
  | commit commits => commits.map (·.1)

variable {kv : Kv} {m : Mutation} {j : Bytes}

theorem wf_run (h : kv.WF) (m : Mutation) : (m.run kv).WF := by
  cases m with
  | write txn ops => exact h.replayAll ops
  | replace txn key r => exact h.replaceIntent r
  | commit commits => exact h.commitBatch commits
  | abort txn => exact h.abort

theorem view_run_of_pending (h : kv.WF) (hj : j ∉ m.keys) (hp : (kv.view j).pending = none) :
    (m.run kv).view j = kv.view j := by
  cases m with
  | write txn ops =>
    have hw : written j ops = none :=
      written_eq_none.mpr fun op hop heq => hj (mem_map.mpr ⟨op, hop, heq⟩)
    rw [run, Table.view_replayAll h, hw]
  | replace txn key r =>
    rw [run, Table.view_replaceIntent h, if_neg fun heq => hj (by rw [heq]; exact mem_cons_self)]
  | commit commits =>
    refine Table.view_commitBatch_of_owner_ne h commits fun c _ => ?_
    rw [KeyState.owner, hp]
    rintro ⟨⟩
  | abort txn => rw [run, Table.view_abort h, KeyState.abort_of_pending hp]

end Mutation

/-! ## Acts -/

/-- The commit of a participant: its record and its intents, at one timestamp. -/
def markCommitted (kv : Kv) (txn : TxnId) (record : Participant.RecordV1) (ts : Nat) : Kv :=
  kv.publish txn [.put (Participant.key txn) (.participant record)] ts

section Mark

variable {kv : Kv} {j : Bytes}

theorem view_markCommitted_of_ne (h : kv.WF) (hj : j ≠ Participant.key txn) :
    (markCommitted kv txn record ts).view j = (kv.view j).commit txn ts := by
  have hw : written j [.put (Participant.key txn) (Value.participant record)] = none := by
    simp [written, IntentOperation.key, Ne.symm hj]
  rw [markCommitted, Table.publish, Table.view_commit (h.replayAll _), Table.view_replayAll h, hw]

theorem view_markCommitted_self (h : kv.WF) (hfree : ¬ (kv.view (Participant.key txn)).blocks txn) :
    (markCommitted kv txn record ts).view (Participant.key txn) =
      (kv.view (Participant.key txn)).addCommit txn (some (.participant record)) ts := by
  have hw : written (Participant.key txn) [.put (Participant.key txn) (Value.participant record)] =
      some (some (Value.participant record)) := by
    simp [written, IntentOperation.key, IntentOperation.value]
  rw [markCommitted, Table.publish, Table.view_commit (h.replayAll _), Table.view_replayAll h, hw]
  exact KeyState.commit_write hfree

end Mark

/-- One act of the command at an index: it publishes records under the keys
given and acts for the transactions given. -/
inductive Act [Hashes] (keys : Bytes → Prop) (txns : TxnId → Prop) (index : UInt64) (kv : Kv) :
    Kv → Prop
  | mutate (m : Mutation) (hkeys : ∀ k ∈ m.keys, isControlKey k = false)
      (htxns : ∀ t ∈ m.txns, txns t) (hallowed : m.Allowed kv) : Act keys txns index kv (m.run kv)
  | publish {kv' : Kv} (name : Bytes) (ops : List (IntentOperation Value))
      (hkeys : ∀ op ∈ ops, keys op.key)
      (hpub : Published kv kv' (Hashes.newV5 name) ops index.toNat) : Act keys txns index kv kv'
  | mark (txn : TxnId) (record : Participant.RecordV1) (commitTs : UInt64)
      (hkey : keys (Participant.key txn)) (htxn : txns txn) (hts : index < commitTs)
      (hopen : ∃ epoch, Open kv epoch)
      (hfree : ¬ (kv.view (Participant.key txn)).blocks txn) :
      Act keys txns index kv (markCommitted kv txn record commitTs.toNat)

def Acts [Hashes] (keys : Bytes → Prop) (txns : TxnId → Prop) (index : UInt64) : Kv → Kv → Prop :=
  Relation.ReflTransGen (Act keys txns index)

section Acts

variable [Hashes] {keys : Bytes → Prop} {txns : TxnId → Prop} {index : UInt64} {kv kv' : Kv}
  {j : Bytes}

theorem Act.wf (h : kv.WF) (ha : Act keys txns index kv kv') : kv'.WF := by
  cases ha with
  | mutate m => exact m.wf_run h
  | publish _ _ _ hpub => exact hpub.wf
  | mark => exact h.publish

variable (h : kv.WF) (hj : isControlKey j = true) (hfree : (kv.view j).pending = none)

include h hj hfree

theorem Act.view_control (ha : Act keys txns index kv kv') (hout : ¬ keys j) :
    kv'.view j = kv.view j := by
  cases ha with
  | mutate m hkeys =>
    refine Mutation.view_run_of_pending h (fun hm => ?_) hfree
    rw [hkeys j hm] at hj
    cases hj
  | publish name ops hkeys hpub =>
    have hw : written j ops = none :=
      written_eq_none.mpr fun op hop heq => hout (heq ▸ hkeys op hop)
    rw [hpub.view_of_none hw, KeyState.abort_of_pending hfree]
  | mark txn record commitTs hkey =>
    have hne : j ≠ Participant.key txn := by
      rintro rfl
      exact hout hkey
    rw [view_markCommitted_of_ne h hne, KeyState.commit_of_idle hfree]

theorem Act.pending_control (ha : Act keys txns index kv kv') : (kv'.view j).pending = none := by
  cases ha with
  | mutate m hkeys =>
    rw [Mutation.view_run_of_pending h (fun hm => ?_) hfree, hfree]
    rw [hkeys j hm] at hj
    cases hj
  | publish name ops hkeys hpub => exact hpub.pending hfree
  | mark txn record commitTs hkey htxn hts hopen hblocks =>
    by_cases heq : j = Participant.key txn
    · subst heq
      rw [view_markCommitted_self h hblocks]
      rfl
    · rw [view_markCommitted_of_ne h heq, KeyState.commit_of_idle hfree, hfree]

theorem Act.versions_control (ha : Act keys txns index kv kv')
    (hpart : ∀ txn, j ≠ Participant.key txn)
    (hle : ∀ m ∈ (kv.view j).commits, m.version ≤ index.toNat) :
    ∀ m ∈ (kv'.view j).commits, m.version ≤ index.toNat := by
  cases ha with
  | mutate m hkeys =>
    rw [Mutation.view_run_of_pending h (fun hm => ?_) hfree]
    · exact hle
    · rw [hkeys j hm] at hj
      cases hj
  | publish name ops hkeys hpub =>
    cases hw : written j ops with
    | none =>
      rw [hpub.view_of_none hw, KeyState.commits_abort]
      exact hle
    | some v =>
      rw [hpub.view_of_some hw hfree]
      intro m hm
      rcases mem_append.mp hm with hm | hm
      · exact hle m hm
      rw [mem_singleton.mp hm]
      exact le_rfl
  | mark txn record commitTs hkey =>
    rw [view_markCommitted_of_ne h (hpart txn), KeyState.commit_of_idle hfree]
    exact hle

omit h hj hfree

theorem Acts.wf (h : kv.WF) (ha : Acts keys txns index kv kv') : kv'.WF := by
  induction ha with
  | refl => exact h
  | tail _ hact ih => exact hact.wf ih

variable (h : kv.WF) (hj : isControlKey j = true) (hfree : (kv.view j).pending = none)

include h hj hfree

theorem Acts.pending_control (ha : Acts keys txns index kv kv') : (kv'.view j).pending = none := by
  induction ha with
  | refl => exact hfree
  | tail hacts hact ih => exact hact.pending_control (Acts.wf h hacts) hj ih

theorem Acts.view_control (ha : Acts keys txns index kv kv') (hout : ¬ keys j) :
    kv'.view j = kv.view j := by
  induction ha with
  | refl => rfl
  | tail hacts hact ih =>
    rw [hact.view_control (Acts.wf h hacts) hj (Acts.pending_control h hj hfree hacts) hout, ih]

theorem Acts.versions_control (ha : Acts keys txns index kv kv')
    (hpart : ∀ txn, j ≠ Participant.key txn)
    (hle : ∀ m ∈ (kv.view j).commits, m.version ≤ index.toNat) :
    ∀ m ∈ (kv'.view j).commits, m.version ≤ index.toNat := by
  induction ha with
  | refl => exact hle
  | tail hacts hact ih =>
    exact hact.versions_control (Acts.wf h hacts) hj (Acts.pending_control h hj hfree hacts) hpart ih

end Acts

namespace ShardCommand

def records : ShardCommand → Bytes → Prop
  | migrationV1 cmd, key => key = cmd.key
  | migrationV2 (.plan plan), key => key = journalKeyV2 plan.migration.tableId
  | migrationV2 (.step table _ _), key => key = journalKeyV2 table
  | migrationV3 (.plan plan), key => key = journalKeyV3 plan.migration.tableId
  | migrationV3 (.step table _ _), key => key = journalKeyV3 table
  | migrationV2 (.cancelParticipant _ _), key | migrationV3 (.cancelParticipant _ _), key =>
    key = fenceKey
  | backupJobV1 _, key => Backup.journalPrefix <+: key
  | txnAuthorityV1 cmd, key => key = Authority.key cmd.txnId ∨ Resolution.keyPrefix <+: key
  | txnResolutionV1 _, key => Resolution.keyPrefix <+: key
  | txnParticipantV1 cmd, key => key = Participant.key cmd.txnId
  | _, _ => False

def untracked : ShardCommand → Prop
  | txnAuthorityV1 _ | txnParticipantV1 _ | txnResolutionV1 _ => False
  | _ => True

/-- The seal of an operation that expected the group in an epoch. -/
def cancels (operation : Uuid) (epoch : UInt64) : ShardCommand → Prop
  | migrationV2 (.cancelParticipant o e) | migrationV3 (.cancelParticipant o e) =>
    o = operation ∧ e = epoch
  | _ => False

/-- The prefixes of the journals of migrations, and of the transaction records. -/
def journals : List Bytes :=
  [journalPrefix, journalPrefixV2, journalPrefixV3]
def tracks : List Bytes := [Authority.keyPrefix, Participant.keyPrefix, Resolution.keyPrefix]

section records

variable {cmd : ShardCommand} {j : Bytes}

theorem records_cases (h : cmd.records j) :
    (j = fenceKey ∧ ((∃ operation epoch, cmd = .migrationV1 (.acquire operation epoch)) ∨
      (∃ operation epoch, cmd = .migrationV1 (.release operation epoch)) ∨
      ∃ operation epoch, cmd.cancels operation epoch)) ∨
    (∃ p ∈ journals, p <+: j) ∨ ((∃ c, cmd = .backupJobV1 c) ∧ Backup.journalPrefix <+: j) ∨
    (¬ cmd.untracked ∧ ∃ p ∈ tracks, p <+: j) := by
  have htable : ∀ {p : Bytes} {table : TableId}, j = p ++ table.toText → p ∈ journals →
      ∃ p ∈ journals, p <+: j := fun heq hp => ⟨_, hp, heq ▸ prefix_append _ _⟩
  cases cmd with
  | migrationV1 cmd =>
    cases cmd with
    | acquire operation epoch => exact .inl ⟨h, .inl ⟨operation, epoch, rfl⟩⟩
    | release operation epoch => exact .inl ⟨h, .inr (.inl ⟨operation, epoch, rfl⟩)⟩
    | plan plan | startFencing table operation | requestCancel table operation =>
      exact .inr (.inl (htable h (by decide)))
  | migrationV2 cmd | migrationV3 cmd =>
    cases cmd with
    | cancelParticipant operation epoch =>
      exact .inl ⟨h, .inr (.inr ⟨operation, epoch, rfl, rfl⟩)⟩
    | plan plan | step table operation step => exact .inr (.inl (htable h (by decide)))
  | backupJobV1 cmd => exact .inr (.inr (.inl ⟨⟨cmd, rfl⟩, h⟩))
  | txnAuthorityV1 cmd =>
    refine .inr (.inr (.inr ⟨id, ?_⟩))
    rcases h with rfl | h
    · exact ⟨_, .head _, .trans (by decide) (prefix_append _ _)⟩
    · exact ⟨Resolution.keyPrefix, by decide, h⟩
  | txnResolutionV1 cmd => exact .inr (.inr (.inr ⟨id, Resolution.keyPrefix, by decide, h⟩))
  | txnParticipantV1 cmd =>
    obtain rfl : j = _ := h
    refine .inr (.inr (.inr ⟨id, Participant.keyPrefix, by decide, ?_⟩))
    exact .trans (by decide) (prefix_append _ _)
  | _ => cases h

theorem prefix_of_records (hcmd : cmd.untracked) (h : cmd.records j) :
    keyPrefix <+: j ∨ journalPrefixV2 <+: j ∨
      journalPrefixV3 <+: j ∨ Backup.journalPrefix <+: j := by
  rcases records_cases h with ⟨rfl, -⟩ | ⟨p, hp, hj⟩ | ⟨-, hj⟩ | ⟨hno, -⟩
  · exact .inl ⟨ascii "fence", rfl⟩
  · simp only [journals, mem_cons, not_mem_nil, or_false] at hp
    rcases hp with rfl | rfl | rfl
    · exact .inl (List.IsPrefix.trans ⟨ascii "table/", rfl⟩ hj)
    · exact .inr (.inl hj)
    · exact .inr (.inr (.inl hj))
  · exact .inr (.inr (.inr hj))
  · exact absurd hcmd hno

theorem of_records_fenceKey (h : cmd.records fenceKey) :
    (∃ operation epoch, cmd = .migrationV1 (.acquire operation epoch)) ∨
    (∃ operation epoch, cmd = .migrationV1 (.release operation epoch)) ∨
    ∃ operation epoch, cmd.cancels operation epoch := by
  have hno : ∀ p ∈ journals ++ Backup.journalPrefix :: tracks, ¬ p <+: fenceKey := by
    decide
  rcases records_cases h with ⟨-, hcmd⟩ | ⟨p, hp, hj⟩ | ⟨-, hj⟩ | ⟨-, p, hp, hj⟩
  · exact hcmd
  · exact absurd hj (hno p (mem_append_left _ hp))
  · exact absurd hj (hno _ (by decide))
  · exact absurd hj (hno p (mem_append_right _ (.tail _ hp)))

theorem isControlKey_of_records (h : cmd.records j) (hbackup : ¬ Backup.journalPrefix <+: j) :
    isControlKey j = true := by
  have hcontrol : ∀ p ∈ journals ++ tracks, isControlKey p = true := by decide
  rcases records_cases h with ⟨rfl, -⟩ | ⟨p, hp, hj⟩ | ⟨-, hj⟩ | ⟨-, p, hp, hj⟩
  · exact isControlKey_fenceKey
  · exact isControlKey_of_prefix hj (hcontrol p (mem_append_left _ hp))
  · exact absurd hj hbackup
  · exact isControlKey_of_prefix hj (hcontrol p (mem_append_right _ hp))

end records

/-- The transactions whose intents a command may change. -/
def actsFor : ShardCommand → TxnId → Prop
  | txnParticipantV1 cmd, txn => txn = cmd.txnId
  | cmd, txn => txn ∈ cmd.legacyIds

end ShardCommand

theorem Participant.not_control_of_reserved (hk : reserved k = false) : isControlKey k = false :=
  (Bool.or_eq_false_iff.mp hk).1

namespace Group

variable {kv kv' : Kv} {response : ShardResponse} {s s' : Group}

theorem withKv_eq_ok (h : s.withKv x = .ok (s', response)) :
    ∃ kv', x = .ok (kv', response) ∧ s' = { s with kv := kv' } := by
  cases x with
  | error e => cases h
  | ok p =>
    obtain ⟨kv', r⟩ := p
    cases h
    exact ⟨kv', rfl, rfl⟩

theorem withStore_eq_ok (h : s.withStore x = .ok (s', response)) :
    ∃ store, x = .ok (store, response) ∧ s' = { s with store := store } := by
  cases x with
  | error e => cases h
  | ok p =>
    obtain ⟨store, r⟩ := p
    cases h
    exact ⟨store, rfl, rfl⟩

theorem unfenced_cases (h : s.unfenced key x = .ok (s', response)) :
    (s' = s ∧ response.success = false) ∨
    ((∀ k, key = some k → isControlKey k = false) ∧ readFence s.kv = .ok none ∧
      ∃ kv', x = .ok (kv', response) ∧ s' = { s with kv := kv' }) := by
  unfold unfenced at h
  split at h
  · cases h
    exact .inl ⟨rfl, rfl⟩
  next hkey =>
  simp only [bind_eq_ok] at h
  obtain ⟨fence, hfence, h⟩ := h
  split at h
  · cases h
    exact .inl ⟨rfl, rfl⟩
  next hnone =>
  refine .inr ⟨?_, ?_, withKv_eq_ok h⟩
  · rintro k rfl
    exact Bool.eq_false_of_not_eq_true hkey
  · rw [hfence, Option.not_isSome_iff_eq_none.mp hnone]

theorem reroute_cases (h : s.reroute change = .ok (s', response)) :
    s' = s ∨ s' = { s with store := s.store.map change } := by
  simp only [reroute, bind_eq_ok] at h
  obtain ⟨fence, hfence, h⟩ := h
  split at h
  · cases h
    exact .inl rfl
  · cases h
    exact .inr rfl

theorem writePlain_cases (h : kv.WF) (ha : writePlain kv txn op = .ok (kv', response)) :
    kv' = kv ∨ ∃ t, txn = some t ∧ ¬ (kv.view op.key).blocks t ∧
      kv' = kv.replayAll t [EpochIntentOperationV1.toIntent op] 0 := by
  cases txn with
  | none =>
    cases ha
    exact .inl rfl
  | some t =>
    rcases respond_writeIntentImpl h ha with ⟨rfl, -, -⟩ | ⟨rfl, -, hb⟩
    · exact .inl rfl
    · exact .inr ⟨t, rfl, hb, rfl⟩

end Group

section Commands

variable [Hashes] {kv kv' : Kv} {index : UInt64} {response : ShardResponse} {keys : Bytes → Prop}
  {txns : TxnId → Prop}

theorem Acts.of_published (hpub : Published kv kv' (writeId name index) ops index.toNat)
    (hkeys : ∀ op ∈ ops, keys op.key) : Acts keys txns index kv kv' :=
  .single (.publish (name ++ toBeBytes index) ops hkeys hpub)

theorem Acts.of_mutation (m : Mutation) (hkv : kv' = m.run kv)
    (hkeys : ∀ k ∈ m.keys, isControlKey k = false) (htxns : ∀ t ∈ m.txns, txns t)
    (hallowed : m.Allowed kv) : Acts keys txns index kv kv' := by
  subst hkv
  exact .single (.mutate m hkeys htxns hallowed)

theorem Migration.journal_acts (h : kv.WF) (hkey : keys key)
    (hj : journal kv key index outcome = .ok (kv', response)) :
    Acts keys txns index kv kv' := by
  obtain ⟨kv₁, hclean, ⟨-, rfl⟩ | ⟨v, -, -, hpub⟩⟩ := journal_spec h hj
  · exact .of_published hclean (by simp)
  refine .of_published (hclean.trans hpub) fun op hop => ?_
  rw [mem_singleton.mp hop]
  exact hkey

theorem Acts.of_write (ops : List EpochIntentOperationV1) (hopen : Open kv epoch)
    (hkv : kv' = kv.replayAll txn (ops.map EpochIntentOperationV1.toIntent) 0)
    (hkeys : ∀ op ∈ ops, isControlKey op.key = false) (htxn : txns txn) :
    Acts keys txns index kv kv' := by
  refine .of_mutation (.write txn (ops.map EpochIntentOperationV1.toIntent)) hkv
    (fun k hk => ?_) (by simpa [Mutation.txns] using htxn) (.inr ⟨epoch, hopen⟩)
  simp only [Mutation.keys, mem_map] at hk
  obtain ⟨_, ⟨op, hop, rfl⟩, rfl⟩ := hk
  rw [EpochIntentOperationV1.key_toIntent]
  exact hkeys op hop

variable {cmd : CommandV1} {old : Option RecordV1}

theorem Authority.apply_acts (h : kv.WF) (ha : apply kv cmd index = .ok (kv', response)) :
    Acts (ShardCommand.txnAuthorityV1 cmd).records txns index kv kv' := by
  obtain ⟨old, -, ⟨_, -, rfl, -⟩ | ⟨next, -, -, ⟨-, rfl⟩ | ⟨-, hpub⟩⟩⟩ := apply_cases ha
  · exact .refl
  · exact .refl
  refine .of_published (publish_ok h hpub).2.1 fun op hop => ?_
  rcases mem_cons.mp hop with rfl | hop
  · exact .inl rfl
  · exact .inr (Resolution.keyPrefix_of_queued hop)

theorem Resolution.apply_acts (h : kv.WF) (ha : apply kv cmd index = .ok (kv', response)) :
    Acts (ShardCommand.txnResolutionV1 cmd).records txns index kv kv' := by
  obtain ⟨kv₁, habort, ⟨-, rfl⟩ | ⟨writes, ho, -, hpub⟩⟩ := apply_cases h ha
  · exact .of_published habort (by simp)
  refine .of_published (habort.trans hpub) fun op hop => ?_
  rcases outcome_writes ho with ⟨_, _, _, _, p, -, -, -, -, -, -, -, -, rfl⟩ |
    ⟨_, _, _, _, _, -, -, -, -, -, -, rfl⟩
  · generalize p.acknowledge _ _ = q at hop
    rcases mem_append.mp hop with hop | hop
    · split at hop
      · rw [mem_singleton.mp hop]
        exact prefix_pendingKey _ _
      · cases hop
    · rw [mem_singleton.mp hop]
      exact prefix_progressKey _
  · rw [mem_singleton.mp hop]
    exact ⟨ascii "v1/cursor", rfl⟩

theorem Participant.Started.acts (hs : Started kv cmd index old kv₁) :
    Acts (ShardCommand.txnParticipantV1 cmd).records txns index kv kv₁ := by
  cases hs with
  | first hidle hpub =>
    refine .of_published hpub fun op hop => ?_
    rw [mem_singleton.mp hop]
    rfl
  | again => exact .refl

theorem Participant.Started.wf (h : kv.WF) (hs : Started kv cmd index old kv') : kv'.WF := by
  cases hs with
  | first hidle hpub => exact hpub.wf
  | again => exact h

theorem Participant.Started.isOpen (h : kv.WF) (hs : Started kv cmd index old kv₁)
    (hopen : Open kv epoch) : Open kv₁ epoch := by
  cases hs with
  | first hidle hpub =>
    exact hopen.published h hpub (by simp [written, IntentOperation.key, key_ne_fenceKey])
  | again => exact hopen

theorem Participant.Applied.acts (h : kv.WF) (ha : Applied kv group cmd index old kv' response) :
    Acts (ShardCommand.txnParticipantV1 cmd).records (ShardCommand.txnParticipantV1 cmd).actsFor
      index kv kv' := by
  have hrecord : ∀ {kv' : Kv} {record : RecordV1}, Published kv kv' (writeId (key cmd.txnId) index)
      [.put (key cmd.txnId) (.participant record)] index.toNat →
      Acts (ShardCommand.txnParticipantV1 cmd).records (ShardCommand.txnParticipantV1 cmd).actsFor
        index kv kv' := fun hpub => .of_published hpub fun op hop => by
    rw [mem_singleton.mp hop]
    rfl
  cases ha with
  | rejected | prepareRetried | commitRetried => exact .refl
  | wrote ops hop hvalid hopen hkeys hstart hwrite =>
    rcases hwrite with ⟨rfl, -⟩ | ⟨hkv, -, -⟩
    · exact hstart.acts
    exact hstart.acts.trans (Acts.of_write ops (hstart.isOpen h hopen) hkv
      (fun op hop => not_control_of_reserved (hkeys op hop)) rfl)
  | repaired k r hop hof hphase hopen hkey =>
    refine .of_mutation (.replace cmd.txnId k r.toIntent) rfl (fun j hj => ?_) (fun t ht => ?_)
      (.inr ⟨_, hopen⟩)
    · rw [mem_singleton.mp hj]
      exact hkey
    · exact mem_singleton.mp ht
  | prepared hash hop hvalid hof hphase hopen hhash hpub => exact hrecord hpub
  | committed decision commitTs hash hop hnext hphase hold hopen hhash hts hput =>
    obtain ⟨hb, rfl⟩ := putIntent_ok h hput
    exact .single (.mark cmd.txnId _ commitTs rfl rfl hts ⟨_, hopen⟩ hb)
  | @aborted _ next kv₁ decision hop hnext hphase hidle hsave =>
    have habort : ∀ kv₁ : Kv, Acts (ShardCommand.txnParticipantV1 cmd).records
        (ShardCommand.txnParticipantV1 cmd).actsFor index kv₁ (kv₁.abort cmd.txnId) := fun kv₁ =>
      .of_mutation (.abort cmd.txnId) rfl (by simp [Mutation.keys])
        (fun t ht => mem_singleton.mp ht) (.inl ⟨_, rfl⟩)
    have hid : next.txnId = cmd.txnId := by
      rcases (validateDecision_ok hnext).phase with ⟨_, -, hn⟩ | ⟨-, hn⟩
      all_goals exact congrArg RecordV1.txnId hn
    rw [hid] at hsave
    rcases hsave with ⟨-, rfl⟩ | ⟨-, hpub⟩
    · exact habort _
    · exact (hrecord hpub).trans (habort _)

/-- In a group that is not in the command's epoch, a command is rejected,
delivers an abort and makes nothing visible, or repeats a commit that is
recorded already. -/
theorem Participant.Applied.stale (h : kv.WF) (ha : Applied kv group cmd index old kv' response)
    (hclosed : ¬ Open kv cmd.epoch) :
    response.success = false ∨ ∃ decision, cmd.operation = .resolve decision ∧
      ((decision.phase = .aborted ∧
          ∀ j, isControlKey j = false → (kv'.view j).commits = (kv.view j).commits) ∨
        ∃ ts, decision.phase = .committed ts ∧ old = some (cmd.record (.committed ts)) ∧
          kv' = kv) := by
  cases ha with
  | rejected hr => exact .inl hr
  | wrote ops hop hvalid hopen | repaired k r hop hof hphase hopen
  | prepareRetried hash hop hof hphase hopen | prepared hash hop hvalid hof hphase hopen
  | committed decision commitTs hash hop hnext hphase hold hopen => exact absurd hopen hclosed
  | commitRetried decision commitTs hop hnext hphase =>
    rcases (validateDecision_ok hnext).phase with ⟨ts, hd, rfl⟩ | ⟨-, rfl⟩
    · exact .inr ⟨decision, hop, .inr ⟨ts, hd, rfl, rfl⟩⟩
    · cases hphase
  | @aborted _ next kv₁ decision hop hnext hphase hidle hsave =>
    have hd : decision.phase = .aborted := by
      rcases (validateDecision_ok hnext).phase with ⟨ts, -, rfl⟩ | ⟨hd, -⟩
      · cases hphase
      · exact hd
    refine .inr ⟨decision, hop, .inl ⟨hd, fun j hj => ?_⟩⟩
    rcases hsave with ⟨-, rfl⟩ | ⟨-, hpub⟩
    · rw [Table.view_abort h, KeyState.commits_abort]
    have hw : written j [.put (key next.txnId) (Value.participant next)] = none := by
      refine written_eq_none.mpr fun op hop heq => ?_
      rw [mem_singleton.mp hop] at heq
      exact ne_key_of_not_control hj _ heq.symm
    rw [Table.view_abort hpub.wf, KeyState.commits_abort, hpub.view_of_none hw,
      KeyState.commits_abort]

theorem Backup.evict_acts {jobs : List JobV1} (h : kv.WF)
    (he : jobs.foldlM (evict index) kv = .ok kv') :
    Acts (ShardCommand.backupJobV1 cmd).records txns index kv kv' := by
  induction jobs generalizing kv with
  | nil =>
    cases he
    exact .refl
  | cons job jobs ih =>
    simp only [foldlM_cons, bind_eq_ok] at he
    obtain ⟨kv₁, hjob, he⟩ := he
    simp only [evict, bind_eq_ok] at hjob
    obtain ⟨kv₂, hput, hjob⟩ := hjob
    cases hjob
    generalize hname : ascii "backup-evict" ++ job.jobId.asBytes = name at hput he
    have habort : Published kv (kv.abort (Hashes.newV5 name)) (Hashes.newV5 name) [] index.toNat :=
      .abort h
    have hdelete : [IntentOperation.delete (key job.jobId)].foldlM
        (fun kv op => putIntent kv (Hashes.newV5 name) op) (kv.abort (Hashes.newV5 name)) =
          .ok kv₂ := by
      rw [foldlM_cons, hput]
      rfl
    have hpub : Published kv _ (Hashes.newV5 name) [.delete (key job.jobId)] index.toNat :=
      habort.trans (published_of_foldlM h.abort habort.idle hdelete)
    refine .trans (.single (.publish name _ (fun op hop => ?_) hpub)) (ih hpub.wf he)
    rw [mem_singleton.mp hop]
    exact prefix_append Backup.journalPrefix _

theorem Backup.save_acts (h : kv.WF) (hs : save kv job index = .ok kv') :
    Acts (ShardCommand.backupJobV1 cmd).records txns index kv kv' := by
  refine .of_published (saveRecord_ok h hs) fun op hop => ?_
  rw [mem_singleton.mp hop]
  exact prefix_append Backup.journalPrefix _

theorem Migration.applyV2_acts {cmd : CommandV2} {store : Option MemMetaStore} (h : kv.WF)
    (ha : applyV2 kv cmd index store = .ok (kv', response)) :
    Acts (ShardCommand.migrationV2 cmd).records txns index kv kv' := by
  unfold applyV2 at ha
  split at ha
  · exact journal_acts h rfl ha
  · cases ha
    exact .refl
  all_goals exact journal_acts h rfl ha

variable [Serde]

theorem Backup.update_acts {transition : JobV1 → Transition} (h : kv.WF)
    (ha : update kv job index transition = .ok (kv', response)) :
    Acts (ShardCommand.backupJobV1 cmd).records txns index kv kv' := by
  simp only [update, bind_eq_ok] at ha
  obtain ⟨found, -, ha⟩ := ha
  split at ha
  · cases ha
    exact .refl
  split at ha
  · cases ha
    exact .refl
  simp only [bind_eq_ok] at ha
  obtain ⟨kv₁, hs, ha⟩ := ha
  cases ha
  exact save_acts h hs

theorem Backup.apply_acts (h : kv.WF) (ha : apply kv cmd index = .ok (kv', response)) :
    Acts (ShardCommand.backupJobV1 cmd).records txns index kv kv' := by
  cases cmd with
  | plan job =>
    simp only [apply, plan, bind_eq_ok] at ha
    obtain ⟨_, -, _, -, found, -, ha⟩ := ha
    split at ha
    · cases ha
      exact .refl
    simp only [bind_eq_ok] at ha
    obtain ⟨jobs, -, ha⟩ := ha
    split at ha
    · cases ha
      exact .refl
    simp only [bind_eq_ok] at ha
    obtain ⟨active, -, ha⟩ := ha
    split at ha
    · cases ha
      exact .refl
    simp only [bind_eq_ok] at ha
    obtain ⟨kv₁, hs, all, -, kv₂, he, ha⟩ := ha
    cases ha
    exact (save_acts h hs).trans (evict_acts (saveRecord_ok h hs).wf he)
  | heartbeat job atMs | complete job | cancel job => exact update_acts h ha
  | fail job reason =>
    simp only [apply, bind_eq_ok] at ha
    obtain ⟨_, -, ha⟩ := ha
    exact update_acts h ha

theorem Migration.applyV3_acts {cmd : CommandV3} {store : Option MemMetaStore} (h : kv.WF)
    (ha : applyV3 kv cmd index store = .ok (kv', response)) :
    Acts (ShardCommand.migrationV3 cmd).records txns index kv kv' := by
  unfold applyV3 at ha
  split at ha
  · exact journal_acts h rfl ha
  · cases ha
    exact .refl
  all_goals exact journal_acts h rfl ha

/-! ## Entries of the log -/

namespace Group

variable {s s' : Group}

omit [Hashes] [Serde] in
theorem open_of_readFence (h : readFence kv = .ok none) : Open kv 0 :=
  ⟨none, h, by decide⟩

omit [Serde] in
theorem unfenced_writePlain_acts (op : EpochIntentOperationV1) (h : s.kv.WF)
    (htxn : ∀ t, txn = some t → txns t)
    (ha : s.unfenced (some op.key) (writePlain s.kv txn op) = .ok (s', response)) :
    Acts keys txns index s.kv s'.kv := by
  rcases unfenced_cases ha with ⟨rfl, -⟩ | ⟨hkey, hfence, kv', hx, rfl⟩
  · exact .refl
  rcases writePlain_cases h hx with rfl | ⟨t, rfl, -, rfl⟩
  · exact .refl
  refine Acts.of_write [op] (open_of_readFence hfence) rfl (fun o ho => ?_) (htxn t rfl)
  rw [mem_singleton.mp ho]
  exact hkey _ rfl

omit [Serde] in
theorem unfenced_commit_acts {txn : Option Uuid} {commitTs : UInt64}
    (htxn : ∀ t, txn = some t → txns t)
    (ha : s.unfenced none (pure (txn.elim s.kv fun t => s.kv.commit t commitTs.toNat, accepted)) =
      .ok (s', response)) : Acts keys txns index s.kv s'.kv := by
  rcases unfenced_cases ha with ⟨rfl, -⟩ | ⟨-, hfence, kv', hx, rfl⟩
  · exact .refl
  cases hx
  cases txn with
  | none => exact .refl
  | some t =>
    refine .of_mutation (.commit [(t, commitTs.toNat)]) rfl (by simp [Mutation.keys]) (fun u hu => ?_)
      (.inr ⟨0, open_of_readFence hfence⟩)
    rw [mem_singleton.mp hu]
    exact htxn t rfl

variable {cmd : ShardCommand}

theorem applyUntracked_acts (h : s.kv.WF) (ha : s.applyUntracked cmd index = .ok (s', response)) :
    Acts cmd.records cmd.actsFor index s.kv s'.kv := by
  have hlegacy : ∀ {txn : Option Uuid} (t : Uuid), txn = some t → t ∈ txn.toList := by
    rintro _ t rfl
    exact mem_singleton.mpr rfl
  cases cmd with
  | putIntent txn key value | indexPutIntent txn key value =>
    exact unfenced_writePlain_acts (.put key value) h hlegacy ha
  | deleteIntent txn key | indexDeleteIntent txn key =>
    exact unfenced_writePlain_acts (.delete key) h hlegacy ha
  | commitTxn txn commitTs => exact unfenced_commit_acts hlegacy ha
  | abortTxn txn recorded =>
    cases ha
    cases txn with
    | none => exact .refl
    | some t =>
      exact .of_mutation (.abort t) rfl (by simp [Mutation.keys])
        (fun u hu => hu) (.inl ⟨t, rfl⟩)
  | prepareTxn txn =>
    rcases unfenced_cases ha with ⟨rfl, -⟩ | ⟨-, -, kv', hx, rfl⟩
    · exact .refl
    cases hx
    exact .refl
  | updateShardMap map | updateShardPlacements placements =>
    rcases reroute_cases ha with rfl | rfl
    all_goals exact .refl
  | migrationV1 cmd =>
    obtain ⟨kv', hx, rfl⟩ := withKv_eq_ok ha
    exact journal_acts h rfl hx
  | epochWriteV1 epoch mutation =>
    obtain ⟨kv', hx, rfl⟩ := withKv_eq_ok ha
    rcases applyEpochWrite_cases h hx with
      ⟨rfl, -⟩ | ⟨-, hopen, ⟨op, hkey, -, rfl⟩ | ⟨commitTs, rfl⟩⟩
    · exact .refl
    · refine Acts.of_write [op] hopen rfl (fun o ho => ?_) (mem_singleton.mpr rfl)
      rw [mem_singleton.mp ho]
      exact hkey
    · exact .of_mutation (.commit [(mutation.txn, commitTs.toNat)]) rfl (by simp [Mutation.keys])
        (fun u hu => hu) (.inr ⟨epoch, hopen⟩)
  | migrationV2 cmd =>
    obtain ⟨kv', hx, rfl⟩ := withKv_eq_ok ha
    exact applyV2_acts h hx
  | epochPrepareV2 epoch txn expectIntents =>
    obtain ⟨kv', hx, rfl⟩ := withKv_eq_ok ha
    obtain ⟨rfl, -⟩ := applyEpochPrepare_cases hx
    exact .refl
  | epochRepairV2 epoch txn key replacement =>
    obtain ⟨kv', hx, rfl⟩ := withKv_eq_ok ha
    rcases applyRepair_cases hx with ⟨rfl, -⟩ | ⟨-, hopen, hkey, rfl⟩
    · exact .refl
    refine .of_mutation (.replace txn key replacement.toIntent) rfl (fun k hk => ?_)
      (fun u hu => hu) (.inr ⟨epoch, hopen⟩)
    rw [mem_singleton.mp hk]
    exact hkey
  | migrationV3 cmd =>
    obtain ⟨kv', hx, rfl⟩ := withKv_eq_ok ha
    exact applyV3_acts h hx
  | backupJobV1 cmd =>
    obtain ⟨kv', hx, rfl⟩ := withKv_eq_ok ha
    exact Backup.apply_acts h hx
  | updateShardMapConditional table operation phase expected map
  | updateShardPlacementsConditional table operation phase expected placements =>
    obtain ⟨store, hx, rfl⟩ := withStore_eq_ok ha
    exact .refl
  | epochWriteBatchV1 epoch txn operations =>
    obtain ⟨kv', hx, rfl⟩ := withKv_eq_ok ha
    rcases applyWriteBatch_cases h hx with ⟨rfl, -⟩ | ⟨-, hopen, hkeys, -, hkv⟩
    · exact .refl
    · exact Acts.of_write operations hopen hkv hkeys (mem_singleton.mpr rfl)
  | epochCommitBatchV1 epoch commits =>
    obtain ⟨kv', hx, rfl⟩ := withKv_eq_ok ha
    rcases applyCommitBatch_cases hx with ⟨rfl, -⟩ | ⟨-, hopen, rfl⟩
    · exact .refl
    refine .of_mutation (.commit (commits.map fun c => (c.txn, c.commitTs.toNat))) rfl
      (by simp [Mutation.keys]) (fun u hu => ?_) (.inr ⟨epoch, hopen⟩)
    simp only [Mutation.txns, map_map] at hu
    exact hu
  | txnAuthorityV1 cmd =>
    cases ha
    exact .refl
  | txnParticipantV1 cmd =>
    cases ha
    exact .refl
  | txnResolutionV1 cmd =>
    cases ha
    exact .refl

omit [Hashes] [Serde] in
theorem rejectLegacy_success (h : Participant.rejectLegacy kv cmd tracking = .ok (some response)) :
    response.success = false := by
  unfold Participant.rejectLegacy at h
  split at h
  · cases h
    rfl
  split at h
  · cases h
  simp only [bind_eq_ok] at h
  obtain ⟨tracked, -, h⟩ := h
  split at h
  · cases h
    rfl
  · cases h

theorem apply_cases (ha : s.apply cmd index = .ok (s', response)) :
    (s'.kv = s.kv ∧ response.success = false) ∨
    (∃ c kv', cmd = .txnResolutionV1 c ∧ s.name = shardMeta ∧
      Resolution.apply s.kv c index = .ok (kv', response) ∧ s' = { s with kv := kv' }) ∨
    (∃ c kv', cmd = .txnParticipantV1 c ∧
      Participant.apply s.kv s.name c index = .ok (kv', response) ∧
      s' = { s with kv := kv', tracked := true }) ∨
    (∃ c kv', cmd = .txnAuthorityV1 c ∧ s.name = shardMeta ∧
      Authority.apply s.kv c index = .ok (kv', response) ∧ s' = { s with kv := kv' }) ∨
    (cmd.untracked ∧ cmd.plainKey.any Upgrade.keyPrefix.isPrefixOf = false ∧
      Participant.rejectLegacy s.kv cmd s.tracked = .ok none ∧
      s.applyUntracked cmd index = .ok (s', response)) := by
  unfold apply at ha
  split at ha
  next c =>
    split at ha
    · cases ha
      exact .inl ⟨rfl, rfl⟩
    next hname =>
    obtain ⟨kv', hx, rfl⟩ := withKv_eq_ok ha
    exact .inr (.inl ⟨c, kv', rfl, not_not.mp hname, hx, rfl⟩)
  next c =>
    obtain ⟨kv', hx, rfl⟩ := withKv_eq_ok ha
    exact .inr (.inr (.inl ⟨c, kv', rfl, hx, rfl⟩))
  next c =>
    split at ha
    · cases ha
      exact .inl ⟨rfl, rfl⟩
    next hname =>
    obtain ⟨kv', hx, rfl⟩ := withKv_eq_ok ha
    exact .inr (.inr (.inr (.inl ⟨c, kv', rfl, not_not.mp hname, hx, rfl⟩)))
  next hresolution hparticipant hauthority =>
    have hcmd : cmd.untracked := by
      cases cmd with
      | txnAuthorityV1 c => exact hauthority c rfl
      | txnParticipantV1 c => exact hparticipant c rfl
      | txnResolutionV1 c => exact hresolution c rfl
      | _ => trivial
    split at ha
    · cases ha
      exact .inl ⟨rfl, rfl⟩
    next hkey =>
    simp only [bind_eq_ok] at ha
    obtain ⟨rejection, hreject, ha⟩ := ha
    split at ha
    · cases ha
      exact .inl ⟨rfl, rejectLegacy_success hreject⟩
    · exact .inr (.inr (.inr (.inr
        ⟨hcmd, Bool.eq_false_of_not_eq_true hkey, hreject, ha⟩)))

theorem apply_acts (h : s.kv.WF) (ha : s.apply cmd index = .ok (s', response)) :
    Acts cmd.records cmd.actsFor index s.kv s'.kv := by
  rcases apply_cases ha with ⟨hkv, -⟩ | ⟨c, kv', rfl, -, hx, rfl⟩ | ⟨c, kv', rfl, hx, rfl⟩ |
    ⟨c, kv', rfl, -, hx, rfl⟩ | ⟨-, -, -, hx⟩
  · rw [hkv]
    exact .refl
  · exact Resolution.apply_acts h hx
  · obtain ⟨old, -, happlied⟩ := Participant.apply_cases h hx
    exact happlied.acts h
  · exact Authority.apply_acts h hx
  · exact applyUntracked_acts h hx

end Group

end Commands

end NodusDb.Raft
