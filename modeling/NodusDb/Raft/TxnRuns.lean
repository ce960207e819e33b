import NodusDb.Raft.Replica

/-!
# Records of transactions over whole runs

The records of the transaction authority and of participants change by commands
of their own transaction only. Between two entries they can always be read.

* `snapshot_records_exact`: what the checks on a snapshot's records accept and
  reject, against the history of the record.
-/

namespace NodusDb.Raft

open Result
open Migration (isControlKey)

section Authority

open Authority

variable {s s' t : Replica} {e : AppliedEntry} {txn : Uuid} {record : RecordV1}

theorem Authority.decode_eq_ok :
    decode (.authority record) = .ok record' ↔
      ((encode record).length ≤ maxRecordBytes ∧ record.validate = .ok ()) ∧
        record = record' := by
  simp only [decode, bind_eq_ok, ensure_eq_ok, pure_eq_ok]
  constructor
  · rintro ⟨_, hsize, _, hvalid, heq⟩
    exact ⟨⟨hsize, hvalid⟩, heq⟩
  · rintro ⟨⟨hsize, hvalid⟩, heq⟩
    exact ⟨(), hsize, (), hvalid, heq⟩

theorem Authority.read_of_lookup {kv : Kv}
    (h : lookup kv (key txn) = some (.authority record))
    (hsize : (encode record).length ≤ maxRecordBytes)
    (hvalid : record.validate = .ok ()) (hid : record.txnId = txn) :
    read kv txn = .ok (some record) := by
  rw [read, h]
  simp only [bind_eq_ok, ensure_eq_ok, pure_eq_ok]
  exact ⟨record, decode_eq_ok.mpr ⟨⟨hsize, hvalid⟩, rfl⟩, (), hid, rfl⟩

theorem Authority.read_some (h : read kv txn = .ok (some record)) :
    ((encode record).length ≤ maxRecordBytes ∧ record.validate = .ok ()) ∧
      record.txnId = txn := by
  unfold read at h
  split at h
  · cases h
  next value hvalue =>
  simp only [bind_eq_ok, ensure_eq_ok, pure_eq_ok] at h
  obtain ⟨r, hdecode, _, hid, hr⟩ := h
  cases hr
  cases value with
  | authority r =>
    obtain ⟨hstored, rfl⟩ := decode_eq_ok.mp hdecode
    exact ⟨hstored, hid⟩
  | _ => cases hdecode

variable [Hashes] [Serde]

/-- How an entry changes the authority record of a transaction. -/
inductive AuthorityMove (e : AppliedEntry) (txn : Uuid) (old : Option RecordV1) :
    Option RecordV1 → Prop
  | kept : AuthorityMove e txn old old
  | moved (cmd : CommandV1) (next : RecordV1)
      (hcmd : e.cmd = .txnAuthorityV1 cmd) (htxn : cmd.txnId = txn)
      (htransition : transition old cmd = .ok next) (hne : old ≠ some next)
      (haccepted : e.response = accepted) : AuthorityMove e txn old (some next)

theorem authority_step (h : Settled s) (hs : s.Step e s') (hread : read s.kv txn = .ok old) :
    ∃ new, read s'.kv txn = .ok new ∧ AuthorityMove e txn old new := by
  have hkept : lookup s'.kv (key txn) = lookup s.kv (key txn) →
      ∃ new, read s'.kv txn = .ok new ∧ AuthorityMove e txn old new := fun heq =>
    ⟨old, by rw [Authority.read, heq]; exact hread, .kept⟩
  obtain ⟨hindex, -, happly⟩ := Replica.next_eq_some hs
  rcases Group.apply_cases happly with ⟨hkv, -⟩ | ⟨c, kv', hc, -⟩ | ⟨c, kv', hc, -⟩ |
    ⟨c, kv', hc, -, hx, hs'⟩ | ⟨hc, -, -, hx⟩
  · exact hkept (by rw [Replica.kv, hkv, Replica.kv])
  · refine hkept (h.lookup_of_records hs (isControlKey_authority txn) ?_)
    rw [hc]
    exact fun hp => ne_of_prefixes hp (List.prefix_append _ _) (by decide) rfl
  · refine hkept (h.lookup_of_records hs (isControlKey_authority txn) ?_)
    rw [hc]
    exact key_ne_participant txn c.txnId
  · have hkv : s'.kv = kv' := by rw [Replica.kv, hs']
    obtain ⟨old', hold', ⟨_, -, rfl, -⟩ | ⟨next, hnext, hr, ⟨-, rfl⟩ | ⟨hne, hpub⟩⟩⟩ :=
      apply_cases hx
    · exact hkept (by rw [hkv]; rfl)
    · exact hkept (by rw [hkv]; rfl)
    by_cases htxn : c.txnId = txn
    · subst htxn
      cases hold'.symm.trans hread
      obtain ⟨hsize, hpublished, -⟩ := publish_ok h.wf hpub
      have hqueue : written (key c.txnId) (Resolution.queued next e.index) = none := by
        refine written_eq_none.mpr fun op hop => ?_
        exact ne_of_prefixes (Resolution.keyPrefix_of_queued hop) (List.prefix_append _ _)
          (by decide)
      have hlookup : lookup s'.kv (key c.txnId) = some (.authority next) := by
        rw [hkv]
        refine h.lookup_published hindex (isControlKey_authority c.txnId)
          (key_ne_participant c.txnId) hpublished ?_
        rw [written, hqueue]
        simp [IntentOperation.key, IntentOperation.value]
      have hid : next.validate = .ok () ∧ next.txnId = c.txnId := by
        rcases transition_cases hnext with ⟨-, hvalid, hid, -⟩ | ⟨heq, -⟩ |
          ⟨record, rfl, hmoved⟩
        · exact ⟨hvalid, hid⟩
        · exact absurd heq hne
        · exact ⟨hmoved.valid, hmoved.txnId.trans (read_some hread).2⟩
      exact ⟨some next, read_of_lookup hlookup hsize hid.1 hid.2, .moved c next hc rfl hnext hne hr⟩
    · refine hkept (h.lookup_of_records hs (isControlKey_authority txn) ?_)
      rw [hc]
      rintro (heq | hp)
      · exact htxn (key_inj heq).symm
      · exact ne_of_prefixes hp (List.prefix_append _ _) (by decide) rfl
  · refine hkept (h.lookup_of_records hs (isControlKey_authority txn) fun hrec => ?_)
    rcases ShardCommand.prefix_of_records hc hrec with hp | hp | hp | hp
    all_goals exact ne_of_prefixes hp (List.prefix_append _ _) (by decide) rfl

end Authority

/-! ## Participants -/

theorem ShardCommand.participant_of_records {cmd : ShardCommand} {txn : Uuid} :
    cmd.records (Participant.key txn) ↔ ∃ c, cmd = .txnParticipantV1 c ∧ c.txnId = txn := by
  constructor
  · intro hrec
    by_cases hcmd : cmd.untracked
    · rcases prefix_of_records hcmd hrec with hp | hp | hp | hp
      all_goals exact absurd rfl (ne_of_prefixes hp (List.prefix_append _ _) (by decide))
    cases cmd with
    | txnParticipantV1 c => exact ⟨c, rfl, (Participant.key_inj hrec).symm⟩
    | txnAuthorityV1 c =>
      rcases hrec with heq | hp
      · exact absurd heq.symm (Authority.key_ne_participant c.txnId txn)
      · exact absurd rfl (ne_of_prefixes hp (List.prefix_append _ _) (by decide))
    | txnResolutionV1 c =>
      exact absurd rfl (ne_of_prefixes (show Resolution.keyPrefix <+: _ from hrec)
        (List.prefix_append _ _) (by decide))
    | _ => exact absurd trivial hcmd
  · rintro ⟨c, rfl, rfl⟩
    rfl

section Participant

open Participant

variable {s s' t : Replica} {e : AppliedEntry} {txn : Uuid} {kv kv' : Kv}
  {record : RecordV1} {cmd : CommandV1}

theorem Participant.decode_eq_ok :
    decode (.participant record) = .ok record' ↔
      validate record = .ok () ∧ record = record' := by
  simp only [decode, bind_eq_ok, ensure_eq_ok, pure_eq_ok]
  constructor
  · rintro ⟨_, -, _, hvalid, heq⟩
    exact ⟨hvalid, heq⟩
  · rintro ⟨hvalid, heq⟩
    exact ⟨(), length_encode_participant record, (), hvalid, heq⟩

theorem Participant.read_of_lookup
    (h : lookup kv (key txn) = some (.participant record))
    (hvalid : validate record = .ok ()) (hid : record.txnId = txn) :
    read kv txn = .ok (some record) := by
  rw [read, h]
  simp only [bind_eq_ok, ensure_eq_ok, pure_eq_ok]
  exact ⟨record, decode_eq_ok.mpr ⟨hvalid, rfl⟩, (), hid, rfl⟩

theorem Participant.read_some (h : read kv txn = .ok (some record)) :
    validate record = .ok () ∧ record.txnId = txn := by
  unfold read at h
  split at h
  · cases h
  next value hvalue =>
  simp only [bind_eq_ok, ensure_eq_ok, pure_eq_ok] at h
  obtain ⟨r, hdecode, _, hid, hr⟩ := h
  cases hr
  cases value with
  | participant r =>
    obtain ⟨hvalid, rfl⟩ := decode_eq_ok.mp hdecode
    exact ⟨hvalid, hid⟩
  | _ => cases hdecode

/-- The participant records can be read, and but for a commit, whose timestamp is
above the index, they have no version above the entries applied. -/
def Tracked (s : Replica) : Prop :=
  ∀ txn, ∃ record, read s.kv txn = .ok record ∧
    ((∀ m ∈ (s.kv.view (key txn)).commits, m.version < s.nextIndex) ∨
      ∃ r ts, record = some r ∧ r.phase = .committed ts)

theorem tracked_empty (name : Bytes) (store : Option MemMetaStore) : Tracked (.empty name store) :=
  fun _ => ⟨none, rfl, .inl fun _ hm => nomatch hm⟩

/-- How an entry changes the participant record of a transaction in a group. -/
inductive ParticipantMove (group : Bytes) (e : AppliedEntry) (txn : Uuid) (old : Option RecordV1) :
    Option RecordV1 → Prop
  | kept : ParticipantMove group e txn old old
  | started (cmd : CommandV1) (hcmd : e.cmd = .txnParticipantV1 cmd) (htxn : cmd.txnId = txn)
      (hold : old = none) : ParticipantMove group e txn old (some (cmd.record .active))
  | prepared (cmd : CommandV1) (record : RecordV1) (hash : Digest)
      (hcmd : e.cmd = .txnParticipantV1 cmd) (htxn : cmd.txnId = txn) (hold : old = some record)
      (hof : record.Of cmd) (hphase : record.phase = .active) :
      ParticipantMove group e txn old (some (cmd.record (.prepared hash)))
  | resolved (cmd : CommandV1) (decision : Authority.RecordV1) (next : RecordV1)
      (hcmd : e.cmd = .txnParticipantV1 cmd) (htxn : cmd.txnId = txn)
      (hop : cmd.operation = .resolve decision) (hdecides : Decides group cmd decision old next)
      (hne : old ≠ some next)
      (hcommit : ∀ ts, next.phase = .committed ts →
        ∃ record hash, old = some record ∧ record.phase = .prepared hash) :
      ParticipantMove group e txn old (some next)

def ParticipantAfter (group : Bytes) (e : AppliedEntry) (txn : Uuid) (old : Option RecordV1)
    (kv : Kv) : Prop :=
  ∃ new, read kv txn = .ok new ∧ ParticipantMove group e txn old new ∧
    ((∀ m ∈ (kv.view (key txn)).commits, m.version < e.index.toNat + 1) ∨
      ∃ r ts, new = some r ∧ r.phase = .committed ts)

/-- A record published by a command on a record that is not committed is the one
that is read next. -/
theorem Settled.participant_published (h : Settled s) {index : UInt64}
    {name : TxnId} (hindex : s.nextIndex ≤ index.toNat)
    (hle : ∀ m ∈ (s.kv.view (key txn)).commits, m.version < s.nextIndex)
    (hpub : Published s.kv kv' name [.put (key txn) (.participant record)] index.toNat) :
    lookup kv' (key txn) = some (.participant record) ∧
      ∀ m ∈ (kv'.view (key txn)).commits, m.version < index.toNat + 1 := by
  have hw : written (key txn)
      [.put (key txn) (Value.participant record)] = some (some (.participant record)) := by
    simp [written, IntentOperation.key, IntentOperation.value]
  have hfree := h.idle _ (isControlKey_participant txn)
  refine ⟨hpub.lookup_of_some hw hfree (fun m hm => (hle m hm).le.trans hindex)
    (Nat.le_sub_one_of_lt index.toNat_lt), ?_⟩
  rw [hpub.view_of_some hw hfree]
  intro m hm
  rcases List.mem_append.mp hm with hm | hm
  · exact Nat.lt_succ_of_le ((hle m hm).le.trans hindex)
  rw [List.mem_singleton.mp hm]
  exact Nat.lt_succ_self _

theorem Participant.read_of_view (h : kv.WF) (h' : kv'.WF)
    (hview : kv'.view (key txn) = kv.view (key txn)) : read kv' txn = read kv txn := by
  rw [read, lookup_eq_of_commits h h' (by rw [hview]), read]

theorem Participant.validate_prepared {hash : Digest}
    (h : validate (cmd.record .active) = .ok ()) :
    validate (cmd.record (.prepared hash)) = .ok () := by
  simp only [validate, bind_eq_ok, ensure_eq_ok] at h ⊢
  obtain ⟨_, hid, _, hpos, _, hgeneration, -⟩ := h
  exact ⟨(), hid, (), hpos, (), .inl (hgeneration.resolve_right (by rintro ⟨⟩)), rfl⟩

theorem Participant.Decides.next_txnId {next : RecordV1} (h : Decides group cmd decision old next) :
    next.txnId = cmd.txnId := by
  rcases h.phase with ⟨_, -, rfl⟩ | ⟨-, rfl⟩
  all_goals rfl

theorem Participant.Decides.eq_of_terminal {next : RecordV1}
    (h : Decides group cmd decision (some record) next) (hterminal : record.phase.terminal = true) :
    record = next := by
  have hsuccessor := h.successor record rfl
  simp only [validateSuccessor, bind_eq_ok, ensure_eq_ok] at hsuccessor
  obtain ⟨_, -, hsuccessor⟩ := hsuccessor
  rw [if_pos hterminal] at hsuccessor
  exact ensure_eq_ok.mp hsuccessor

theorem Settled.participant_kept (h : Settled s) (hindex : s.nextIndex ≤ e.index.toNat)
    (hread : read s.kv txn = .ok old)
    (hold : (∀ m ∈ (s.kv.view (key txn)).commits, m.version < s.nextIndex) ∨ ∃ r ts, old = some r
      ∧ r.phase = .committed ts) (hwf : kv'.WF) (hview : kv'.view (key txn) = s.kv.view (key txn)) :
    ParticipantAfter s.group.name e txn old kv' := by
  refine ⟨old, (read_of_view h.wf hwf hview).trans hread, .kept, ?_⟩
  rw [hview]
  exact hold.imp_left fun hle m hm => Nat.lt_succ_of_le ((hle m hm).le.trans hindex)

variable [Hashes]

theorem participant_applied (h : Settled s) (hindex : s.nextIndex ≤ e.index.toNat)
    (hcmd : e.cmd = .txnParticipantV1 cmd) (hread : read s.kv cmd.txnId = .ok old)
    (hold : (∀ m ∈ (s.kv.view (key cmd.txnId)).commits, m.version < s.nextIndex) ∨ ∃ r ts, old =
      some r ∧ r.phase = .committed ts)
    (ha : Applied s.kv s.group.name cmd e.index old kv' response) :
    ParticipantAfter s.group.name e cmd.txnId old kv' := by
  have hfree := h.idle _ (isControlKey_participant cmd.txnId)
  have hkept : ∀ {kv₁ : Kv}, kv₁.WF →
      kv₁.view (key cmd.txnId) = s.kv.view (key cmd.txnId) →
      ParticipantAfter s.group.name e cmd.txnId old kv₁ := h.participant_kept hindex hread hold
  -- a record is only published over one that is not committed
  have hpublished : ∀ {kv₁ kv₂ : Kv} {record : RecordV1},
      (∀ r ts, old = some r → r.phase ≠ .committed ts) →
      Published s.kv kv₁ (writeId (key cmd.txnId) e.index)
        [.put (key cmd.txnId) (.participant record)] e.index.toNat →
      kv₂.WF → kv₂.view (key cmd.txnId) = kv₁.view (key cmd.txnId) →
      validate record = .ok () → record.txnId = cmd.txnId →
      ParticipantMove s.group.name e cmd.txnId old (some record) →
      ParticipantAfter s.group.name e cmd.txnId old kv₂ := by
    intro kv₁ kv₂ record hopen hpub hwf hview hvalid hid hmove
    have hle := hold.resolve_right fun ⟨r, ts, hr, hphase⟩ => hopen r ts hr hphase
    obtain ⟨hlookup, hversions⟩ := h.participant_published hindex hle hpub
    refine ⟨some record, ?_, hmove, .inl (by rw [hview]; exact hversions)⟩
    rw [read_of_view hpub.wf hwf hview]
    exact read_of_lookup hlookup hvalid hid
  cases ha with
  | rejected | prepareRetried | commitRetried => exact hkept h.wf rfl
  | @wrote _ kv₁ _ _ ops hop hvalid hopen hkeys hstart hwrite =>
    have hview : kv'.WF ∧
        kv'.view (key cmd.txnId) = kv₁.view (key cmd.txnId) := by
      rcases hwrite with ⟨rfl, -⟩ | ⟨rfl, -, -⟩
      · exact ⟨hstart.wf h.wf, rfl⟩
      exact ⟨(hstart.wf h.wf).replayAll _, Migration.view_replayAll_of_ne ops (hstart.wf h.wf)
        fun op hop => ne_key_of_not_control (not_control_of_reserved (hkeys op hop)) _⟩
    cases hstart with
    | first hidle hpub =>
      exact hpublished (by simp) hpub hview.1 hview.2 hvalid rfl (.started cmd hcmd rfl rfl)
    | again => exact hkept hview.1 hview.2
  | repaired k r hop hof hphase hopen hkey =>
    refine hkept (h.wf.replaceIntent _) ?_
    rw [Table.view_replaceIntent h.wf, if_neg (ne_key_of_not_control hkey _).symm]
  | @prepared record _ hash hop hvalid hof hphase hopen hhash hpub =>
    refine hpublished ?_ hpub hpub.wf rfl ?_ rfl (.prepared cmd record hash hcmd rfl rfl hof hphase)
    · rintro r ts hr hc
      cases hr
      cases hphase.symm.trans hc
    · exact validate_prepared hvalid
  | @committed record next kv₁ decision commitTs hash hop hnext hphase hprepared hopen hhash hts
      hput =>
    obtain ⟨hblocks, rfl⟩ := putIntent_ok h.wf hput
    have hdecides := validateDecision_ok hnext
    have hle := hold.resolve_right fun ⟨r, ts, hr, hc⟩ => by
      cases hr
      cases hprepared.symm.trans hc
    have hlookup : lookup (markCommitted s.kv cmd.txnId next commitTs.toNat)
        (key cmd.txnId) = some (.participant next) := by
      have hwf : (markCommitted s.kv cmd.txnId next commitTs.toNat).WF := h.wf.publish
      have hmax : commitTs.toNat ≤ u64Max := Nat.le_sub_one_of_lt commitTs.toNat_lt
      rw [lookup, MemKvEngine.get_eq hwf, view_markCommitted_self h.wf hblocks,
        KeyState.read_addCommit (fun m hm => ?_) hmax]
      exact ((hle m hm).le.trans hindex).trans (UInt64.lt_iff_toNat_lt.mp hts).le
    refine ⟨some next, read_of_lookup hlookup hdecides.next_valid
      hdecides.next_txnId, .resolved cmd decision next hcmd rfl hop hdecides ?_ ?_,
      .inr ⟨next, commitTs, rfl, hphase⟩⟩
    · intro heq
      cases heq
      cases hprepared.symm.trans hphase
    · exact fun _ _ => ⟨record, hash, rfl, hprepared⟩
  | @aborted _ next kv₁ decision hop hnext hphase hidle hsave =>
    have hdecides := validateDecision_ok hnext
    rcases hsave with ⟨rfl, rfl⟩ | ⟨hne', hpub⟩
    · refine hkept h.wf.abort ?_
      rw [Table.view_abort h.wf, KeyState.abort_of_pending hfree]
    rw [hdecides.next_txnId] at hpub
    refine hpublished ?_ hpub hpub.wf.abort ?_ hdecides.next_valid hdecides.next_txnId
      (.resolved cmd decision next hcmd rfl hop hdecides hne' fun ts hc => ?_)
    · rintro r ts rfl hc
      exact hne' (congrArg some (hdecides.eq_of_terminal (by rw [hc]; rfl)))
    · rw [Table.view_abort hpub.wf, KeyState.abort_of_pending (hpub.pending hfree)]
    · cases hphase.symm.trans hc

variable [Serde]

theorem participant_step (h : Settled s) (ht : Tracked s) (hs : s.Step e s') (txn : Uuid) :
    ∃ old, read s.kv txn = .ok old ∧
      ParticipantAfter s.group.name e txn old s'.kv := by
  obtain ⟨old, hread, hold⟩ := ht txn
  obtain ⟨hindex, -, happly⟩ := Replica.next_eq_some hs
  refine ⟨old, hread, ?_⟩
  by_cases hcmd : ∃ cmd, e.cmd = .txnParticipantV1 cmd ∧ cmd.txnId = txn
  · obtain ⟨cmd, hcmd, rfl⟩ := hcmd
    rw [hcmd] at happly
    obtain ⟨kv', hx, hs'⟩ := Group.withKv_eq_ok happly
    obtain ⟨old', hread', happlied⟩ := apply_cases h.wf hx
    cases hread'.symm.trans hread
    rw [show s'.kv = kv' by rw [Replica.kv, hs']]
    exact participant_applied h hindex hcmd hread hold happlied
  · refine h.participant_kept hindex hread hold (h.step hs).wf
      (h.view_of_records hs (isControlKey_participant txn) fun hrec => hcmd ?_)
    rwa [ShardCommand.participant_of_records] at hrec

theorem Tracked.step (h : Settled s) (ht : Tracked s) (hs : s.Step e s') : Tracked s' := by
  intro txn
  obtain ⟨-, -, new, hread, -, hversions⟩ := participant_step h ht hs txn
  rw [(Replica.next_eq_some hs).2.1]
  exact ⟨new, hread, hversions⟩

end Participant

section Follows

open Participant (RecordV1)

/-- A participant record that may come after another one. -/
structure Participant.Follows (current incoming : RecordV1) : Prop where
  epoch : incoming.epoch = current.epoch
  owner : (incoming.generation = current.generation ∧ incoming.owner = current.owner) ∨
    (checkedSucc current.generation = some incoming.generation ∧ incoming.phase = .aborted ∧
      incoming.owner ≠ current.owner)
  prepared : ∀ hash, current.phase = .prepared hash →
    incoming.phase ≠ .active ∧ ∀ hash', incoming.phase = .prepared hash' → hash = hash'
  decided : current.phase.terminal = true → incoming = current

theorem Participant.Follows.refl (record : RecordV1) : Follows record record :=
  ⟨rfl, .inl ⟨rfl, rfl⟩, fun hash h => ⟨by rw [h]; nofun, fun hash' h' => by
    cases h.symm.trans h'
    rfl⟩, fun _ => rfl⟩

variable {current incoming : RecordV1} {txn : Uuid}

theorem Participant.validateFollowing_eq_ok :
    validateFollowing current incoming = .ok () ↔
      Follows current incoming := by
  simp only [validateFollowing, bind_eq_ok, ensure_eq_ok]
  constructor
  · rintro ⟨_, hepoch, h⟩
    split at h
    · have heq := ensure_eq_ok.mp h
      rw [heq]
      exact .refl current
    next hopen =>
    have hdecided : current.phase.terminal = true → incoming = current := fun hd => absurd hd hopen
    split at h
    next hgeneration =>
      simp only [bind_eq_ok, ensure_eq_ok] at h
      obtain ⟨_, howner, h⟩ := h
      refine ⟨hepoch, .inl ⟨hgeneration, howner⟩, fun hash hphase => ?_, hdecided⟩
      rw [hphase] at h
      simp only [bind_eq_ok, ensure_eq_ok] at h
      obtain ⟨_, hactive, h⟩ := h
      refine ⟨hactive, fun hash' hphase' => ?_⟩
      rw [hphase'] at h
      exact ensure_eq_ok.mp h
    · have hfence := ensure_eq_ok.mp h
      refine ⟨hepoch, .inr hfence, fun hash hphase => ?_, hdecided⟩
      rw [hfence.2.1]
      exact ⟨by rintro ⟨⟩, by rintro _ ⟨⟩⟩
  · intro h
    refine ⟨(), h.epoch, ?_⟩
    split
    next hd => exact ensure_eq_ok.mpr (h.decided hd)
    split
    next hgeneration =>
      have howner : incoming.owner = current.owner := by
        rcases h.owner with ⟨-, howner⟩ | ⟨hfence, -⟩
        · exact howner
        have := checkedSucc_gt hfence
        rw [hgeneration] at this
        exact absurd this (UInt64.lt_irrefl _)
      simp only [bind_eq_ok, ensure_eq_ok]
      refine ⟨(), howner, ?_⟩
      split
      next hash hphase =>
        obtain ⟨hactive, hsame⟩ := h.prepared hash hphase
        simp only [bind_eq_ok, ensure_eq_ok]
        refine ⟨(), hactive, ?_⟩
        split
        next hash' hphase' => exact ensure_eq_ok.mpr (hsame hash' hphase')
        · rfl
      · rfl
    next hgeneration =>
      exact ensure_eq_ok.mpr (h.owner.resolve_left fun ho => hgeneration ho.1)

theorem Participant.Follows.moved (h : Follows current old)
    (hm : ParticipantMove group e txn (some old) new) :
    ∃ next, new = some next ∧ Follows current next := by
  cases hm with
  | kept => exact ⟨old, rfl, h⟩
  | started cmd hcmd htxn hold => cases hold
  | prepared cmd record hash hcmd htxn hold hof hphase =>
    cases hold
    refine ⟨_, rfl, ?_, ?_, fun hash' hp => ?_, fun hd => ?_⟩
    · exact hof.2.2.symm.trans h.epoch
    · rcases h.owner with ⟨hgeneration, howner⟩ | ⟨-, haborted, -⟩
      · exact .inl ⟨hof.2.1.symm.trans hgeneration, hof.1.symm.trans howner⟩
      · cases hphase.symm.trans haborted
    · exact absurd hphase (h.prepared hash' hp).1
    · rw [h.decided hd] at hphase
      rw [hphase] at hd
      cases hd
  | resolved cmd decision next hcmd htxn hop hdecides hne hcommit =>
    have hopen : old.phase.terminal = false :=
      Bool.eq_false_of_not_eq_true fun ht => hne (congrArg some (hdecides.eq_of_terminal ht))
    have hsuccessor := hdecides.successor old rfl
    simp only [validateSuccessor, bind_eq_ok, ensure_eq_ok] at hsuccessor
    obtain ⟨_, hepoch, hsuccessor⟩ := hsuccessor
    rw [if_neg (by rw [hopen]; rintro ⟨⟩)] at hsuccessor
    refine ⟨next, rfl, hepoch.symm.trans h.epoch, ?_, fun hash hp => ?_, fun hd => ?_⟩
    · rcases h.owner with ⟨hgeneration, howner⟩ | ⟨-, haborted, -⟩
      · rw [← hgeneration, ← howner]
        split at hsuccessor
        next heq => exact .inl ⟨heq, ensure_eq_ok.mp hsuccessor⟩
        obtain ⟨haborted, hfence, hother⟩ := ensure_eq_ok.mp hsuccessor
        exact .inr ⟨hfence, haborted, hother.symm⟩
      · rw [haborted] at hopen
        cases hopen
    · rcases hdecides.phase with ⟨ts, -, rfl⟩ | ⟨-, rfl⟩
      all_goals exact ⟨by rintro ⟨⟩, by rintro _ ⟨⟩⟩
    · rw [h.decided hd, hd] at hopen
      cases hopen

/-- A record that contradicts the history of another one: another decision or
commit timestamp, a participant lost or changed after the set was sealed, or an
owner that was replaced without a fence. -/
def Authority.Rewrites (current incoming : RecordV1) : Prop :=
  (current.phase.terminal = true ∧ incoming.phase ≠ current.phase) ∨
  (current.phase ≠ .active ∧ ∃ group epoch, current.participants.get? group = some epoch ∧
    incoming.participants.get? group ≠ some epoch) ∨
  (incoming.token.owner ≠ current.token.owner ∧
    ¬ (checkedSucc current.token.generation = some incoming.token.generation ∧
      incoming.phase = .aborted))

/-- The same for a participant record, which enrolls nobody. -/
def Participant.Rewrites (current incoming : RecordV1) : Prop :=
  (current.phase.terminal = true ∧ incoming.phase ≠ current.phase) ∨
  (incoming.owner ≠ current.owner ∧
    ¬ (checkedSucc current.generation = some incoming.generation ∧ incoming.phase = .aborted))

theorem Authority.Follows.not_rewrites (h : Follows current incoming) :
    ¬ Rewrites current incoming := by
  rintro (⟨hdecided, hphase⟩ | ⟨-, group, epoch, henrolled, hlost⟩ | ⟨howner, hfence⟩)
  · exact hphase (congrArg _ (h.decided hdecided))
  · exact hlost (h.participants group epoch henrolled)
  · rcases h.owner with ⟨-, hsame⟩ | ⟨hnext, haborted, -⟩
    · exact howner hsame
    · exact hfence ⟨hnext, haborted⟩

theorem Participant.Follows.not_rewrites
    (h : Follows current incoming) : ¬ Rewrites current incoming := by
  rintro (⟨hdecided, hphase⟩ | ⟨howner, hfence⟩)
  · exact hphase (congrArg _ (h.decided hdecided))
  · rcases h.owner with ⟨-, hsame⟩ | ⟨hnext, haborted, -⟩
    · exact howner hsame
    · exact hfence ⟨hnext, haborted⟩

theorem Authority.validateSnapshotRecord_eq_ok (hread : read kv txn = .ok (some current)) :
    validateSnapshotRecord kv (key txn) (.authority incoming) = .ok () ↔
      decode (.authority incoming) = .ok incoming ∧ incoming.txnId = txn ∧
        Follows current incoming := by
  simp only [validateSnapshotRecord, bind_eq_ok, ensure_eq_ok]
  constructor
  · rintro ⟨r, hdecode, _, hkey, old, hold, h⟩
    obtain ⟨-, rfl⟩ := decode_eq_ok.mp hdecode
    obtain rfl : incoming.txnId = txn := key_inj hkey
    cases hold.symm.trans hread
    exact ⟨hdecode, rfl, validateFollowing_eq_ok.mp h⟩
  · rintro ⟨hdecode, rfl, hfollows⟩
    exact ⟨incoming, hdecode, (), rfl, some current, hread, validateFollowing_eq_ok.mpr hfollows⟩

theorem Participant.validateSnapshot_eq_ok (hread : read kv txn = .ok (some current)) :
    validateSnapshot kv (key txn) (.participant incoming) = .ok () ↔
      decode (.participant incoming) = .ok incoming ∧ incoming.txnId = txn ∧
        Follows current incoming := by
  simp only [validateSnapshot, bind_eq_ok, ensure_eq_ok]
  constructor
  · rintro ⟨r, hdecode, _, hkey, old, hold, h⟩
    obtain ⟨-, rfl⟩ := decode_eq_ok.mp hdecode
    obtain rfl : incoming.txnId = txn := key_inj hkey
    cases hold.symm.trans hread
    exact ⟨hdecode, rfl, validateFollowing_eq_ok.mp h⟩
  · rintro ⟨hdecode, rfl, hfollows⟩
    exact ⟨incoming, hdecode, (), rfl, some current, hread, validateFollowing_eq_ok.mpr hfollows⟩

variable [Hashes] [Serde] {name : Bytes} {store : Option MemMetaStore} {s t : Replica}
  {before after : List AppliedEntry}

theorem readable_of_run (h : Run Replica.Step (.empty name store) before s) :
    Settled s ∧ Tracked s ∧ ∀ txn, ∃ record, Authority.read s.kv txn = .ok record := by
  induction h with
  | nil => exact ⟨settled_empty name store, tracked_empty name store, fun _ => ⟨none, rfl⟩⟩
  | snoc _ hstep ih =>
    obtain ⟨hsettled, htracked, hauthority⟩ := ih
    refine ⟨hsettled.step hstep, htracked.step hsettled hstep, fun txn => ?_⟩
    obtain ⟨old, hold⟩ := hauthority txn
    obtain ⟨new, hnew, -⟩ := authority_step hsettled hstep hold
    exact ⟨new, hnew⟩

theorem Authority.follows_of_run (h : Settled s) (hrun : Run Replica.Step s after t)
    (hread : read s.kv txn = .ok (some record)) :
    Settled t ∧ ∃ later, read t.kv txn = .ok (some later) ∧
      Follows record later := by
  induction hrun with
  | nil => exact ⟨h, record, hread, .refl record⟩
  | snoc _ hstep ih =>
    obtain ⟨hsettled, later, hlater, hfollows⟩ := ih
    refine ⟨hsettled.step hstep, ?_⟩
    obtain ⟨new, hnew, hmove⟩ := authority_step hsettled hstep hlater
    cases hmove with
    | kept => exact ⟨later, hnew, hfollows⟩
    | moved cmd next hcmd htxn htransition hne =>
      rcases transition_cases htransition with ⟨hnone, -⟩ | ⟨heq, -⟩ | ⟨r, hr, hmoved⟩
      · cases hnone
      · exact absurd heq hne
      · cases hr
        exact ⟨next, hnew, hfollows.moved hmoved⟩

theorem Participant.follows_of_run (h : Settled s) (htracked : Tracked s)
    (hrun : Run Replica.Step s after t) (hread : read s.kv txn = .ok (some record)) :
    Settled t ∧ Tracked t ∧ ∃ later, read t.kv txn = .ok (some later) ∧
      Follows record later := by
  induction hrun with
  | nil => exact ⟨h, htracked, record, hread, .refl record⟩
  | snoc _ hstep ih =>
    obtain ⟨hsettled, htracked, later, hlater, hfollows⟩ := ih
    refine ⟨hsettled.step hstep, htracked.step hsettled hstep, ?_⟩
    obtain ⟨old, hold, new, hnew, hmove, -⟩ := participant_step hsettled htracked hstep txn
    cases hold.symm.trans hlater
    obtain ⟨next, rfl, hnext⟩ := hfollows.moved hmove
    exact ⟨next, hnew, hnext⟩

/-- The checks on the records of a snapshot are exact with respect to history:
whatever a record becomes in a later state is accepted in its place, and a record
that rewrites the history is not. -/
theorem snapshot_records_exact (hbefore : Run Replica.Step (.empty name store) before s)
    (hafter : Run Replica.Step s after t) (txn : Uuid) :
    (∀ current, Authority.read s.kv txn = .ok (some current) →
      (∃ later, Authority.read t.kv txn = .ok (some later) ∧
        Authority.validateSnapshotRecord s.kv (Authority.key txn) (.authority later) = .ok ()) ∧
      ∀ incoming, Authority.Rewrites current incoming →
        Authority.validateSnapshotRecord s.kv (Authority.key txn) (.authority incoming) ≠ .ok ()) ∧
    ∀ current, Participant.read s.kv txn = .ok (some current) →
      (∃ later, Participant.read t.kv txn = .ok (some later) ∧
        Participant.validateSnapshot s.kv (Participant.key txn) (.participant later) = .ok ()) ∧
      ∀ incoming, Participant.Rewrites current incoming →
        Participant.validateSnapshot s.kv (Participant.key txn) (.participant incoming) ≠
          .ok () := by
  obtain ⟨hsettled, htracked, -⟩ := readable_of_run hbefore
  refine ⟨fun current hread => ⟨?_, fun incoming hrewrites hok => ?_⟩,
    fun current hread => ⟨?_, fun incoming hrewrites hok => ?_⟩⟩
  · obtain ⟨-, later, hlater, hfollows⟩ := Authority.follows_of_run hsettled hafter hread
    obtain ⟨hstored, hid⟩ := Authority.read_some hlater
    exact ⟨later, hlater, (Authority.validateSnapshotRecord_eq_ok hread).mpr
      ⟨Authority.decode_eq_ok.mpr ⟨hstored, rfl⟩, hid, hfollows⟩⟩
  · exact ((Authority.validateSnapshotRecord_eq_ok hread).mp hok).2.2.not_rewrites hrewrites
  · obtain ⟨-, -, later, hlater, hfollows⟩ :=
      Participant.follows_of_run hsettled htracked hafter hread
    obtain ⟨hvalid, hid⟩ := Participant.read_some hlater
    exact ⟨later, hlater, (Participant.validateSnapshot_eq_ok hread).mpr
      ⟨Participant.decode_eq_ok.mpr ⟨hvalid, rfl⟩, hid, hfollows⟩⟩
  · exact ((Participant.validateSnapshot_eq_ok hread).mp hok).2.2.not_rewrites hrewrites

/-- What a run can no longer change: a decision, of the authority or of a participant, the
participants of a transaction once enrolled, and their set once sealed. -/
theorem decisions_final (hbefore : Run Replica.Step (.empty name store) before s)
    (hafter : Run Replica.Step s after t) (txn : Uuid) :
    (∀ record, Authority.read s.kv txn = .ok (some record) →
      ∃ later, Authority.read t.kv txn = .ok (some later) ∧
        (record.phase.terminal = true → later = record) ∧
        (∀ group epoch, record.participants.get? group = some epoch →
          later.participants.get? group = some epoch) ∧
        (record.phase = .preparing → later.participants = record.participants)) ∧
    ∀ record, Participant.read s.kv txn = .ok (some record) → record.phase.terminal = true →
      Participant.read t.kv txn = .ok (some record) := by
  obtain ⟨hsettled, htracked, -⟩ := readable_of_run hbefore
  refine ⟨fun record hread => ?_, fun record hread hdecided => ?_⟩
  · obtain ⟨-, later, hlater, hfollows⟩ := Authority.follows_of_run hsettled hafter hread
    exact ⟨later, hlater, hfollows.decided, hfollows.participants,
      fun hphase => (hfollows.sealed hphase).2⟩
  · obtain ⟨-, -, later, hlater, hfollows⟩ :=
      Participant.follows_of_run hsettled htracked hafter hread
    rw [hlater, hfollows.decided hdecided]

end Follows

open Fixed in
/-- A transaction begins, and its record of then meets the one with a participant. -/
theorem enrolled_record_accepted :
    ∃ s t, Run Replica.Step (.empty shardMeta none)
        [⟨1, .txnAuthorityV1 ⟨7, none, .begin ⟨1, 3⟩⟩, accepted⟩] s ∧
      Run Replica.Step s
        [⟨2, .txnAuthorityV1 ⟨7, some ⟨⟨1, 3⟩, 1, 1⟩, .enroll (ascii "g") 0⟩, accepted⟩] t ∧
      ∃ current later, Authority.read s.kv 7 = .ok (some current) ∧
        Authority.read t.kv 7 = .ok (some later) ∧
        Authority.validateSnapshotRecord s.kv (Authority.key 7) (.authority later) = .ok () ∧
        ∀ incoming, Authority.Rewrites current incoming →
          Authority.validateSnapshotRecord s.kv (Authority.key 7) (.authority incoming) ≠
            .ok () := by
  obtain ⟨s, hs, ⟨_, hcurrent, current, rfl, -⟩, t, ht, -⟩ : ∃ s, (Replica.empty shardMeta none).next
      ⟨1, .txnAuthorityV1 ⟨7, none, .begin ⟨1, 3⟩⟩, accepted⟩ = some s ∧
        (∃ r, Authority.read s.kv 7 = .ok r ∧ ∃ current, r = some current ∧ True) ∧
        ∃ t, s.next ⟨2, .txnAuthorityV1 ⟨7, some ⟨⟨1, 3⟩, 1, 1⟩, .enroll (ascii "g") 0⟩,
          accepted⟩ = some t ∧ True := by
    decide +kernel
  obtain ⟨hfollow, -⟩ := snapshot_records_exact (.single hs) (.single ht) 7
  obtain ⟨⟨later, hlater, hvalid⟩, hrejects⟩ := hfollow current hcurrent
  exact ⟨s, t, .single hs, .single ht, current, later, hcurrent, hlater, hvalid, hrejects⟩

open Fixed in
/-- An abort, and the begin of another transaction. -/
theorem aborted_stays :
    ∃ s t, Run Replica.Step (.empty shardMeta none)
        [⟨1, .txnAuthorityV1 ⟨7, none, .begin ⟨1, 3⟩⟩, accepted⟩,
         ⟨2, .txnAuthorityV1 ⟨7, some ⟨⟨1, 3⟩, 1, 1⟩, .abort⟩, accepted⟩] s ∧
      Run Replica.Step s [⟨3, .txnAuthorityV1 ⟨8, none, .begin ⟨1, 3⟩⟩, accepted⟩] t ∧
      ∃ record, Authority.read t.kv 7 = .ok (some record) ∧ record.phase = .aborted := by
  obtain ⟨s, hs, ⟨_, hread, record, rfl, hphase⟩, t, ht, -⟩ : ∃ s,
      exec Replica.next (.empty shardMeta none)
        [⟨1, .txnAuthorityV1 ⟨7, none, .begin ⟨1, 3⟩⟩, accepted⟩,
         ⟨2, .txnAuthorityV1 ⟨7, some ⟨⟨1, 3⟩, 1, 1⟩, .abort⟩, accepted⟩] = some s ∧
        (∃ r, Authority.read s.kv 7 = .ok r ∧ ∃ record, r = some record ∧
          record.phase = .aborted) ∧
        ∃ t, s.next ⟨3, .txnAuthorityV1 ⟨8, none, .begin ⟨1, 3⟩⟩, accepted⟩ = some t ∧ True := by
    decide +kernel
  obtain ⟨later, hlater, hfinal, -⟩ :=
    (decisions_final (run_of_exec hs) (.single ht) 7).1 record hread
  rw [hfinal (by rw [hphase]; rfl)] at hlater
  exact ⟨s, t, run_of_exec hs, .single ht, record, hlater, hphase⟩

end NodusDb.Raft
