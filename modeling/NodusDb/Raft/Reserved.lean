import NodusDb.Raft.Replica

/-!
# Reserved keys

Control records and those of upgrades have reserved keys. The commands by which clients write data
check the keys they are given, each on its own.

* `client_mutation_reserved`: which reserved keys no client mutation touches.
* `epoch_write_upgrade_key`: an epoch write does not check for upgrade keys.
-/

namespace NodusDb.Raft

open Migration (isControlKey)

namespace ShardCommand

/-- A write of user data that a client asks for. -/
def clientMutation : ShardCommand → Prop
  | putIntent _ _ _ | deleteIntent _ _ | indexPutIntent _ _ _ | indexDeleteIntent _ _
  | epochWriteV1 _ _ | epochWriteBatchV1 _ _ _ | epochRepairV2 _ _ _ _ => True
  | txnParticipantV1 cmd =>
    (∃ operations, cmd.operation = .write operations) ∨
      ∃ key replacement, cmd.operation = .repair key replacement
  | _ => False

/-- The keys that a mutation reaches with no check for upgrade keys: the keys that it names, or
those of the intents that it publishes. -/
def unchecked (kv : Kv) : ShardCommand → Bytes → Prop
  | epochWriteV1 _ (.put _ key _), j | epochWriteV1 _ (.delete _ key), j
  | epochRepairV2 _ _ key _, j => key = j
  | epochWriteV1 _ (.commit txn _), j => (kv.view j).owner = some txn
  | epochWriteBatchV1 _ _ operations, j => ∃ op ∈ operations, op.key = j
  | txnParticipantV1 cmd, j => ∃ replacement, cmd.operation = .repair j replacement
  | _, _ => False

end ShardCommand

/-- No intent was created or replaced and no version was added. -/
def Unforged (old new : KeyState Value) : Prop :=
  new.commits = old.commits ∧ (new.pending = none ∨ new.pending = old.pending)

theorem Unforged.refl (state : KeyState Value) : Unforged state state := ⟨rfl, .inr rfl⟩

theorem unforged_abort (state : KeyState Value) (txn : TxnId) :
    Unforged state (state.abort txn) := by
  refine ⟨KeyState.commits_abort, ?_⟩
  by_cases ho : state.owner = some txn
  · left
    rw [KeyState.abort, if_pos ho]
    rfl
  · right
    rw [KeyState.abort_of_owner_ne ho]

section Mutations

variable [Hashes] {kv kv' : Kv} {index : UInt64} {response : ShardResponse} {j : Bytes}
  {cmd : CommandV1} {old : Option RecordV1}

theorem Participant.Started.unforged (hs : Started kv cmd index old kv') (hj : j ≠ key cmd.txnId) :
    Unforged (kv.view j) (kv'.view j) := by
  cases hs with
  | first hidle hpub =>
    rw [hpub.view_of_none (by simp [written, IntentOperation.key, Ne.symm hj])]
    exact unforged_abort _ _
  | again => exact .refl _

theorem Participant.Applied.unforged (h : kv.WF)
    (ha : Applied kv group cmd index old kv' response)
    (hop : (∃ operations, cmd.operation = .write operations) ∨ ∃ k r, cmd.operation = .repair k r)
    (hj : reserved j = true) (hne : j ≠ key cmd.txnId)
    (hrepair : ∀ r, cmd.operation ≠ .repair j r) : Unforged (kv.view j) (kv'.view j) := by
  cases ha with
  | rejected => exact .refl _
  | wrote ops hop' hvalid hopen hkeys hstart hwrite =>
    rcases hwrite with ⟨rfl, -⟩ | ⟨rfl, -, -⟩
    · exact hstart.unforged hne
    rw [Migration.view_replayAll_of_ne ops (hstart.wf h) fun op hop heq => ?_]
    · exact hstart.unforged hne
    have := hkeys op hop
    rw [heq, hj] at this
    cases this
  | repaired k r hop' =>
    rw [Table.view_replaceIntent h, if_neg]
    · exact .refl _
    · rintro rfl
      exact hrepair r hop'
  | prepareRetried hash hop' | prepared hash hop' | commitRetried decision commitTs hop'
  | committed decision commitTs hash hop' | aborted decision hop' =>
    rw [hop'] at hop
    rcases hop with ⟨_, ⟨⟩⟩ | ⟨_, _, ⟨⟩⟩

/-- A client mutation leaves the record of its participant, or writes the marker
of a transaction that starts. -/
def Marked (cmd : Participant.CommandV1) (index : UInt64) (old new : KeyState Value) : Prop :=
  new = old ∨ ∃ txn, new =
    old.addCommit txn (some (.participant (cmd.record .active))) index.toNat

theorem Participant.Applied.marked (h : kv.WF) (hfree : (kv.view (key cmd.txnId)).pending = none)
    (ha : Applied kv group cmd index old kv' response)
    (hop : (∃ operations, cmd.operation = .write operations) ∨ ∃ k r, cmd.operation = .repair k r) :
    Marked cmd index (kv.view (key cmd.txnId)) (kv'.view (key cmd.txnId)) := by
  cases ha with
  | rejected => exact .inl rfl
  | @wrote _ kv₁ _ _ ops hop' hvalid hopen hkeys hstart hwrite =>
    have hstarted : Marked cmd index (kv.view (key cmd.txnId)) (kv₁.view (key cmd.txnId)) := by
      cases hstart with
      | first hidle hpub =>
        exact .inr ⟨_, hpub.view_of_some (by simp [written, IntentOperation.key,
          IntentOperation.value]) hfree⟩
      | again => exact .inl rfl
    rcases hwrite with ⟨rfl, -⟩ | ⟨rfl, -, -⟩
    · exact hstarted
    rw [Migration.view_replayAll_of_ne ops (hstart.wf h) fun op hop =>
      ne_key_of_not_control (not_control_of_reserved (hkeys op hop)) _]
    exact hstarted
  | repaired k r hop' hof hphase hopen hkey =>
    left
    rw [Table.view_replaceIntent h, if_neg (ne_key_of_not_control hkey _).symm]
  | prepareRetried hash hop' | prepared hash hop' | commitRetried decision commitTs hop'
  | committed decision commitTs hash hop' | aborted decision hop' =>
    rw [hop'] at hop
    rcases hop with ⟨_, ⟨⟩⟩ | ⟨_, _, ⟨⟩⟩

omit [Hashes] in
theorem Migration.view_applyEpochWrite (h : kv.WF)
    (ha : applyEpochWrite kv epoch mutation = .ok (kv', response))
    (hj : ¬ (ShardCommand.epochWriteV1 epoch mutation).unchecked kv j) :
    kv'.view j = kv.view j := by
  simp only [applyEpochWrite, Result.bind_eq_ok] at ha
  obtain ⟨fence, -, ha⟩ := ha
  split at ha
  · cases ha
    rfl
  cases mutation with
  | put u k v | delete u k =>
    rcases applyIntent_cases h ha with ⟨rfl, -⟩ | ⟨-, -, -, rfl⟩
    · rfl
    refine view_replayAll_of_ne [_] h fun op hop => ?_
    rw [List.mem_singleton.mp hop]
    exact hj
  | prepare u =>
    simp only at ha
    split at ha
    all_goals
      cases ha
      rfl
  | commit u ts =>
    cases ha
    rw [Table.view_commit h, KeyState.commit_of_owner_ne hj]

variable [Serde]

/-- A mutation that is not a participant's leaves the upgrade keys that it does
not reach unchecked. -/
theorem Group.view_of_unchecked {s s' : Group} {cmd : ShardCommand} (h : s.kv.WF)
    (hclient : cmd.clientMutation) (hcmd : ∀ c, cmd ≠ .txnParticipantV1 c)
    (hj : Upgrade.keyPrefix <+: j) (hreach : ¬ cmd.unchecked s.kv j)
    (ha : s.apply cmd index = .ok (s', response)) : s'.kv.view j = s.kv.view j := by
  rcases apply_cases ha with ⟨hkv, -⟩ | ⟨c, kv', rfl, -⟩ | ⟨c, kv', rfl, -⟩ |
    ⟨c, kv', rfl, -⟩ | ⟨-, hupgrade, -, hx⟩
  · rw [hkv]
  · cases hclient
  · exact absurd rfl (hcmd c)
  · cases hclient
  have hplain : ∀ {txn : Option Uuid} (op : Migration.EpochIntentOperationV1),
      cmd.plainKey = some op.key →
      s.unfenced (some op.key) (writePlain s.kv txn op) = .ok (s', response) →
      s'.kv.view j = s.kv.view j := by
    intro txn op hk hu
    rcases unfenced_cases hu with ⟨rfl, -⟩ | ⟨-, -, kv', hw, rfl⟩
    · rfl
    rcases writePlain_cases h hw with rfl | ⟨t, rfl, -, rfl⟩
    · rfl
    refine Migration.view_replayAll_of_ne [op] h fun o ho heq => ?_
    rw [List.mem_singleton.mp ho] at heq
    rw [hk, heq] at hupgrade
    cases (List.isPrefixOf_iff_prefix.mpr hj).symm.trans hupgrade
  cases cmd with
  | putIntent txn key value | indexPutIntent txn key value => exact hplain (.put key value) rfl hx
  | deleteIntent txn key | indexDeleteIntent txn key => exact hplain (.delete key) rfl hx
  | epochWriteV1 epoch mutation =>
    obtain ⟨kv', hw, rfl⟩ := withKv_eq_ok hx
    exact Migration.view_applyEpochWrite h hw hreach
  | epochWriteBatchV1 epoch txn operations =>
    obtain ⟨kv', hw, rfl⟩ := withKv_eq_ok hx
    rcases Migration.applyWriteBatch_cases h hw with ⟨rfl, -⟩ | ⟨-, -, -, -, rfl⟩
    · rfl
    · exact Migration.view_replayAll_of_ne _ h fun op hop heq => hreach ⟨op, hop, heq⟩
  | epochRepairV2 epoch txn key replacement =>
    obtain ⟨kv', hw, rfl⟩ := withKv_eq_ok hx
    rcases Migration.applyRepair_cases hw with ⟨rfl, -⟩ | ⟨-, -, -, rfl⟩
    · rfl
    · exact (Table.view_replaceIntent h _ j).trans (if_neg fun heq => hreach heq.symm)
  | txnParticipantV1 c => exact absurd rfl (hcmd c)
  | _ => cases hclient

end Mutations

end NodusDb.Raft
