import NodusDb.Raft.Replica

/-!
# Fences over whole runs

* `fence_step`: how an entry changes the fence.
* `cancelled_never_acquires`: a cancelled operation never closes the group again.
* `closed_fence_freezes`: the epoch never decreases, a closed group keeps its data, and mutations of
  earlier epochs are rejected.
* `fence_held_alone`: one migration at a time has a group.
-/

namespace NodusDb.Raft

open Migration

namespace ShardCommand

def opens (operation : Uuid) : ShardCommand → Prop
  | migrationV1 (.release o _) | migrationV2 (.cancelParticipant o _)
  | migrationV3 (.cancelParticipant o _) => o = operation
  | _ => False

theorem cancels.opens {cmd : ShardCommand} {operation : Uuid} {epoch : UInt64}
    (h : cmd.cancels operation epoch) : cmd.opens operation := by
  unfold cancels at h
  split at h
  · exact h.1
  · exact h.1
  · cases h

end ShardCommand

/-! ## How an entry changes the fence -/

/-- How an entry changes the fence of a group: from what to what, where `kv'` is
the state after it. -/
inductive FenceMove (e : AppliedEntry) (kv' : Kv) (old : Option ParticipantFence) :
    Option ParticipantFence → Prop
  | kept : FenceMove e kv' old old
  | acquired (operation : Uuid) (expected next : UInt64)
      (hcmd : e.cmd = .migrationV1 (.acquire operation expected))
      (hopen : EpochIsOpen old expected) (hnext : checkedSucc expected = some next)
      (hquiet : ∀ txn, kv'.keysOf txn = []) :
      FenceMove e kv' old (some ⟨operation, next, true⟩)
  | released (operation : Uuid) (epoch : UInt64)
      (hcmd : e.cmd = .migrationV1 (.release operation epoch))
      (haccepted : e.response.success = true) (hold : old = some ⟨operation, epoch, true⟩) :
      FenceMove e kv' old (some ⟨operation, epoch, false⟩)
  | sealed (operation : Uuid) (expected next : UInt64) (hcmd : e.cmd.cancels operation expected)
      (haccepted : e.response.success = true) (hnext : checkedSucc expected = some next)
      (hold : old = some ⟨operation, next, true⟩ ∨ EpochIsOpen old expected) :
      FenceMove e kv' old (some ⟨operation, next, false⟩)

section Moves

variable [Hashes] {s : Replica} {kv' : Kv} {index : UInt64} {response : ShardResponse}

/-- A command on the fence decides on the fence as it is, and what it saves is
the fence after it. -/
theorem Settled.fence_journal {outcome : Kv → Result (Outcome ParticipantFence)} (h : Settled s)
    (hindex : s.nextIndex ≤ index.toNat)
    (hj : journal s.kv fenceKey index (fun kv => (outcome kv).map (.map .fence)) =
      .ok (kv', response)) :
    ∃ kv₁, readFence kv₁ = readFence s.kv ∧
      ((outcome kv₁ = .ok (.respond response) ∧ kv' = kv₁) ∨
        ∃ fence, outcome kv₁ = .ok (.save fence) ∧ response = accepted ∧
          readFence kv' = .ok (some fence) ∧
          ((∀ txn, kv₁.keysOf txn = []) → ∀ txn, kv'.keysOf txn = [])) := by
  obtain ⟨kv₁, hclean, hend⟩ := journal_spec h.wf hj
  have hsame : readFence kv₁ = readFence s.kv := by
    rw [readFence, hclean.lookup_of_none h.wf rfl, readFence]
  refine ⟨kv₁, hsame, ?_⟩
  rcases hend with ⟨ho, rfl⟩ | ⟨v, ho, hr, hpub⟩
  · exact .inl ⟨outcome_map_eq_respond ho, rfl⟩
  obtain ⟨fence, hsave, rfl⟩ := outcome_map_eq_save ho
  have hlookup : lookup kv' fenceKey = some (.fence fence) :=
    h.lookup_published hindex isControlKey_fenceKey
      (fun txn => (Participant.key_ne_fenceKey txn).symm) (hclean.trans hpub)
      (by simp [written, IntentOperation.key, IntentOperation.value])
  refine .inr ⟨fence, hsave, hr, by rw [readFence, hlookup], fun hquiet txn => ?_⟩
  rw [hpub.keysOf]
  split
  · rfl
  · exact hquiet txn

variable [Serde] {s' : Replica} {e : AppliedEntry} {old : Option ParticipantFence}
  {operation : Uuid} {epoch : UInt64}

theorem journal_of_step (hs : s.Step e s') (hcmd : e.cmd = .migrationV1 cmd) :
    s.nextIndex ≤ e.index.toNat ∧
      applyControl s.kv cmd e.index s.group.store.isSome = .ok (s'.kv, e.response) := by
  obtain ⟨hindex, -, happly⟩ := Replica.next_eq_some hs
  rw [hcmd, Group.apply_migrationV1] at happly
  obtain ⟨kv', hx, hs'⟩ := Group.withKv_eq_ok happly
  have hkv : s'.kv = kv' := by rw [Replica.kv, hs']
  rw [hkv]
  exact ⟨hindex, hx⟩

theorem Settled.acquire_step (h : Settled s) (hs : s.Step e s') (hf : readFence s.kv = .ok old)
    (hcmd : e.cmd = .migrationV1 (.acquire operation epoch)) :
    (readFence s'.kv = .ok old ∧ (e.response.success = true →
      ∃ next, checkedSucc epoch = some next ∧ old = some ⟨operation, next, true⟩)) ∨
    ∃ next, checkedSucc epoch = some next ∧ EpochIsOpen old epoch ∧
      readFence s'.kv = .ok (some ⟨operation, next, true⟩) ∧ ∀ txn, s'.kv.keysOf txn = [] := by
  obtain ⟨hindex, hx⟩ := journal_of_step hs hcmd
  obtain ⟨kv₁, hsame, ⟨ho, rfl⟩ | ⟨fence, ho, hr, hread, hquiet⟩⟩ := h.fence_journal hindex hx
  · refine .inl ⟨by rw [hsame, hf], fun hr => ?_⟩
    obtain ⟨next, hnext, hread⟩ := acquire_spec ho hr
    rw [hsame, hf] at hread
    exact ⟨next, hnext, Except.ok.inj hread⟩
  obtain ⟨current, hcurrent, hopen, hnext, hop, hclosed, hq⟩ := acquire_spec ho
  rw [hsame, hf] at hcurrent
  cases hcurrent
  obtain ⟨o, n, c⟩ := fence
  cases hop
  cases hclosed
  exact .inr ⟨n, hnext, hopen, hread, hquiet (quiescent_spec hq).1⟩

theorem Settled.release_step (h : Settled s) (hs : s.Step e s') (hf : readFence s.kv = .ok old)
    (hcmd : e.cmd = .migrationV1 (.release operation epoch)) :
    readFence s'.kv = .ok old ∨ (old = some ⟨operation, epoch, true⟩ ∧
      readFence s'.kv = .ok (some ⟨operation, epoch, false⟩) ∧ e.response.success = true) := by
  obtain ⟨hindex, hx⟩ := journal_of_step hs hcmd
  obtain ⟨kv₁, hsame, ⟨ho, rfl⟩ | ⟨fence, ho, hr, hread, -⟩⟩ := h.fence_journal hindex hx
  · exact .inl (by rw [hsame, hf])
  obtain ⟨hcurrent, rfl⟩ := release_save ho
  rw [hsame, hf] at hcurrent
  exact .inr ⟨Except.ok.inj hcurrent, hread, by rw [hr]; rfl⟩

theorem applyCancelParticipant_of_cancels {index : UInt64} {group group' : Group}
    {cmd : ShardCommand} (hcmd : cmd.cancels operation epoch)
    (ha : group.apply cmd index = .ok (group', response)) :
    applyCancelParticipant group.kv operation epoch index group.store.isSome =
      .ok (group'.kv, response) := by
  unfold ShardCommand.cancels at hcmd
  split at hcmd
  · obtain ⟨rfl, rfl⟩ := hcmd
    rw [Group.apply_migrationV2] at ha
    obtain ⟨kv', hx, rfl⟩ := Group.withKv_eq_ok ha
    exact hx
  · obtain ⟨rfl, rfl⟩ := hcmd
    rw [Group.apply_migrationV3] at ha
    obtain ⟨kv', hx, rfl⟩ := Group.withKv_eq_ok ha
    exact hx
  · cases hcmd

theorem Settled.cancel_step (h : Settled s) (hs : s.Step e s') (hf : readFence s.kv = .ok old)
    (hcmd : e.cmd.cancels operation epoch) :
    (readFence s'.kv = .ok old ∧ (e.response.success = true →
      ∃ next fence, checkedSucc epoch = some next ∧ old = some fence ∧
        Sealed operation next fence)) ∨
    (e.response.success = true ∧ ∃ next, checkedSucc epoch = some next ∧
      (old = some ⟨operation, next, true⟩ ∨ EpochIsOpen old epoch) ∧
      readFence s'.kv = .ok (some ⟨operation, next, false⟩)) := by
  obtain ⟨hindex, -, happly⟩ := Replica.next_eq_some hs
  have hx := applyCancelParticipant_of_cancels hcmd happly
  obtain ⟨kv₁, hsame, ⟨ho, hkv⟩ | ⟨fence, ho, hr, hread, -⟩⟩ := h.fence_journal hindex hx
  · refine .inl ⟨by rw [Replica.kv, hkv, hsame, hf], fun hr => ?_⟩
    obtain ⟨next, fence, hnext, hread, hsealed⟩ := cancelParticipant_spec ho hr
    rw [hsame, hf] at hread
    exact ⟨next, fence, hnext, Except.ok.inj hread, hsealed⟩
  obtain ⟨hnext, hop, hopened, hold⟩ := cancelParticipant_spec ho
  rw [hsame, hf] at hold
  obtain ⟨o, n, c⟩ := fence
  cases hop
  cases hopened
  refine .inr ⟨by rw [hr]; rfl, n, hnext, ?_, hread⟩
  rcases hold with hold | ⟨current, hcurrent, hopen, -⟩
  · exact .inl (Except.ok.inj hold)
  cases hcurrent
  exact .inr hopen

theorem fence_step (h : Settled s) (hs : s.Step e s') (hf : readFence s.kv = .ok old) :
    ∃ new, readFence s'.kv = .ok new ∧ FenceMove e s'.kv old new := by
  by_cases hrec : e.cmd.records fenceKey
  · rcases ShardCommand.of_records_fenceKey hrec with
      ⟨o, n, hcmd⟩ | ⟨o, n, hcmd⟩ | ⟨o, n, hcmd⟩
    · rcases h.acquire_step hs hf hcmd with ⟨hread, -⟩ | ⟨next, hnext, hopen, hread, hquiet⟩
      · exact ⟨old, hread, .kept⟩
      · exact ⟨_, hread, .acquired o n next hcmd hopen hnext hquiet⟩
    · rcases h.release_step hs hf hcmd with hread | ⟨hold, hread, haccepted⟩
      · exact ⟨old, hread, .kept⟩
      · exact ⟨_, hread, .released o n hcmd haccepted hold⟩
    · rcases h.cancel_step hs hf hcmd with ⟨hread, -⟩ | ⟨haccepted, next, hnext, hold, hread⟩
      · exact ⟨old, hread, .kept⟩
      · exact ⟨_, hread, .sealed o n next hcmd haccepted hnext hold⟩
  · refine ⟨old, ?_, .kept⟩
    rw [readFence, h.lookup_of_records hs isControlKey_fenceKey hrec]
    exact hf

end Moves

/-! ## Cancelled operations -/

variable {e : AppliedEntry} {kv' : Kv} {new : Option ParticipantFence}

theorem FenceMove.epoch_le (h : FenceMove e kv' old new) : epochOf old ≤ epochOf new := by
  have hsucc : ∀ {n m : UInt64}, checkedSucc n = some m → n ≤ m := fun hnm => by
    have := checkedSucc_eq_some hnm
    exact UInt64.le_iff_toNat_le.mpr (by omega)
  cases h with
  | kept => exact UInt64.le_refl _
  | acquired operation expected next hcmd hopen hnext =>
    rw [hopen.1]
    exact hsucc hnext
  | released operation epoch hcmd haccepted hold =>
    rw [hold]
    exact UInt64.le_refl _
  | sealed operation expected next hcmd haccepted hnext hold =>
    rcases hold with hold | hopen
    · rw [hold]
      exact UInt64.le_refl _
    · rw [hopen.1]
      exact hsucc hnext

theorem FenceMove.sealed_of_sealed (h : FenceMove e kv' (some fence) new)
    (hsealed : Sealed operation epoch fence) :
    ∃ fence', new = some fence' ∧ Sealed operation epoch fence' := by
  have hge : epoch.toNat ≤ fence.epoch.toNat := by
    rcases hsealed with hlt | ⟨heq, -⟩
    · exact (UInt64.lt_iff_toNat_lt.mp hlt).le
    · rw [heq]
  have hpast : ∀ {expected next : UInt64}, EpochIsOpen (some fence) expected →
      checkedSucc expected = some next → epoch < next := fun hopen hnext => by
    have hepoch : fence.epoch = _ := hopen.1
    have := checkedSucc_eq_some hnext
    rw [hepoch] at hge
    exact UInt64.lt_iff_toNat_lt.mpr (by omega)
  cases h with
  | kept => exact ⟨fence, rfl, hsealed⟩
  | acquired o expected next hcmd hopen hnext => exact ⟨_, rfl, .inl (hpast hopen hnext)⟩
  | released o n hcmd haccepted hold =>
    cases hold
    exact ⟨_, rfl, hsealed.imp id fun h => ⟨h.1, .inr rfl⟩⟩
  | sealed o expected next hcmd haccepted hnext hold =>
    rcases hold with hold | hopen
    · cases hold
      exact ⟨_, rfl, hsealed.imp id fun h => ⟨h.1, .inr rfl⟩⟩
    · exact ⟨_, rfl, .inl (hpast hopen hnext)⟩

section Runs

variable [Hashes] [Serde] {name : Bytes} {store : Option MemMetaStore} {s t u : Replica}
  {before after : List AppliedEntry}

theorem settled_of_run (h : Run Replica.Step (.empty name store) before s) : Settled s :=
  h.invariant (settled_empty name store) fun _ _ _ => Settled.step

theorem fence_of_run (h : Run Replica.Step (.empty name store) before s) :
    ∃ fence, readFence s.kv = .ok fence := by
  induction h with
  | nil => exact ⟨none, rfl⟩
  | snoc hrun hstep ih =>
    obtain ⟨fence, hf⟩ := ih
    obtain ⟨new, hnew, -⟩ := fence_step (settled_of_run hrun) hstep hf
    exact ⟨new, hnew⟩

theorem sealed_of_run (h : Settled s) (hnext : checkedSucc epoch = some next)
    (hf : readFence s.kv = .ok (some fence)) (hsealed : Sealed operation next fence)
    (hrun : Run Replica.Step s after t) :
    Settled t ∧ (∃ fence', readFence t.kv = .ok (some fence') ∧ Sealed operation next fence') ∧
      ∀ e ∈ after, e.cmd = .migrationV1 (.acquire operation epoch) → e.response.success = false := by
  induction hrun with
  | nil => exact ⟨h, ⟨fence, hf, hsealed⟩, by simp⟩
  | snoc hrun hstep ih =>
    obtain ⟨ht, ⟨fence', hf', hsealed'⟩, hall⟩ := ih
    obtain ⟨new, hnew, hmove⟩ := fence_step ht hstep hf'
    obtain ⟨fence'', rfl, hsealed''⟩ := hmove.sealed_of_sealed hsealed'
    refine ⟨ht.step hstep, ⟨fence'', hnew, hsealed''⟩, fun e he hcmd => ?_⟩
    rcases List.mem_append.mp he with he | he
    · exact hall e he hcmd
    rw [List.mem_singleton.mp he] at hcmd ⊢
    refine Bool.eq_false_of_not_eq_true fun hr => ?_
    have hepoch := checkedSucc_eq_some hnext
    rcases ht.acquire_step hstep hf' hcmd with ⟨-, haccepted⟩ | ⟨_, -, hopen, -⟩
    · obtain ⟨n, hn, hfence⟩ := haccepted hr
      cases hnext.symm.trans hn
      cases hfence
      rcases hsealed' with hlt | ⟨-, hne | hopen⟩
      · exact absurd hlt (UInt64.lt_irrefl _)
      · exact hne rfl
      · cases hopen
    · have hepoch' : fence'.epoch = epoch := hopen.1
      rcases hsealed' with hlt | ⟨heq, -⟩
      · have := UInt64.lt_iff_toNat_lt.mp hlt
        rw [hepoch'] at this
        omega
      · rw [← hepoch', heq] at hepoch
        omega

/-- After the seal of an operation is accepted, the group never again accepts its
acquisition and its fence is never again closed in the operation's name in that
epoch, or in the epoch the acquisition would have made. -/
theorem cancelled_never_acquires {cancel : AppliedEntry} {operation : Uuid} {epoch : UInt64}
    (hbefore : Run Replica.Step (.empty name store) before s) (hcancel : s.Step cancel t)
    (hcmd : cancel.cmd.cancels operation epoch) (haccepted : cancel.response.success = true)
    (hafter : Run Replica.Step t after u) :
    (∀ e ∈ after, e.cmd = .migrationV1 (.acquire operation epoch) → e.response.success = false) ∧
    ∃ fence, readFence u.kv = .ok (some fence) ∧ epoch < fence.epoch ∧
      ¬ (fence.closed = true ∧ fence.operationId = operation ∧
        fence.epoch.toNat = epoch.toNat + 1) := by
  have hs := settled_of_run hbefore
  obtain ⟨old, hold⟩ := fence_of_run hbefore
  have hsealed : ∃ next fence, checkedSucc epoch = some next ∧ readFence t.kv = .ok (some fence) ∧
      Sealed operation next fence := by
    rcases hs.cancel_step hcancel hold hcmd with ⟨hread, hok⟩ | ⟨-, next, hnext, -, hread⟩
    · obtain ⟨next, fence, hnext, rfl, hfence⟩ := hok haccepted
      exact ⟨next, fence, hnext, hread, hfence⟩
    · exact ⟨next, _, hnext, hread, .inr ⟨rfl, .inr rfl⟩⟩
  obtain ⟨next, fence, hnext, hread, hfence⟩ := hsealed
  obtain ⟨-, ⟨fence', hread', hfence'⟩, hall⟩ :=
    sealed_of_run (hs.step hcancel) hnext hread hfence hafter
  have hepoch := checkedSucc_eq_some hnext
  refine ⟨hall, fence', hread', ?_, ?_⟩
  · rcases hfence' with hlt | ⟨heq, -⟩
    · exact UInt64.lt_iff_toNat_lt.mpr (by have := UInt64.lt_iff_toNat_lt.mp hlt; omega)
    · exact UInt64.lt_iff_toNat_lt.mpr (by rw [heq]; omega)
  rintro ⟨hclosed, hop, heq⟩
  rcases hfence' with hlt | ⟨-, hne | hopen⟩
  · have := UInt64.lt_iff_toNat_lt.mp hlt
    omega
  · exact hne hop
  · rw [hclosed] at hopen
    cases hopen

end Runs

open Fixed in
/-- The acquisition arrives after the seal. -/
theorem delayed_acquire_rejected :
    ∃ t u, (Replica.empty [] none).Step ⟨1, .migrationV2 (.cancelParticipant 7 0), accepted⟩ t ∧
      Run Replica.Step t [⟨2, .migrationV1 (.acquire 7 0),
        Migration.reject "operation already released this participant"⟩] u ∧
      ∃ fence, readFence u.kv = .ok (some fence) ∧ 0 < fence.epoch ∧
        ¬ (fence.closed = true ∧ fence.operationId = 7 ∧ fence.epoch.toNat = 0 + 1) := by
  obtain ⟨t, ht, u, hu⟩ : ∃ t, (Replica.empty [] none).next
      ⟨1, .migrationV2 (.cancelParticipant 7 0), accepted⟩ = some t ∧
        ∃ u, t.next ⟨2, .migrationV1 (.acquire 7 0),
          Migration.reject "operation already released this participant"⟩ = some u := by
    decide +kernel
  exact ⟨t, u, ht, .single hu, (cancelled_never_acquires (.nil _) ht ⟨rfl, rfl⟩ rfl (.single hu)).2⟩

section Closed

variable [Hashes] {keys : Bytes → Prop} {txns : TxnId → Prop} {index : UInt64} {kv kv' : Kv}

theorem Act.view_of_quiet (h : kv.WF) (hquiet : ∀ txn, kv.keysOf txn = [])
    (hguard : (∀ epoch, ¬ Open kv epoch) ∨ ∀ txn, ¬ txns txn)
    (ha : Act keys txns index kv kv') :
    (∀ txn, kv'.keysOf txn = []) ∧ ∀ j, ¬ keys j → kv'.view j = kv.view j := by
  have hpending := pending_of_keysOf h hquiet
  cases ha with
  | mutate m hkeys htxns hallowed =>
    rcases hguard with hclosed | hnone
    · rcases hallowed with ⟨txn, rfl⟩ | ⟨epoch, hopen⟩
      · refine ⟨fun u => ?_, fun j _ => ?_⟩
        · rw [Mutation.run, Table.keysOf_abort, hquiet, ite_self]
        · rw [Mutation.run, Table.view_abort h, KeyState.abort_of_pending (hpending j)]
      · exact absurd hopen (hclosed epoch)
    cases m with
    | write txn ops | replace txn key r | abort txn =>
      exact absurd (htxns txn (by simp [Mutation.txns])) (hnone txn)
    | commit commits =>
      cases commits with
      | nil => exact ⟨hquiet, fun _ _ => rfl⟩
      | cons c commits => exact absurd (htxns c.1 (by simp [Mutation.txns])) (hnone c.1)
  | publish name ops hkeys hpub =>
    refine ⟨fun u => ?_, fun j hj => ?_⟩
    · rw [hpub.keysOf, hquiet, ite_self]
    have hw : written j ops = none :=
      written_eq_none.mpr fun op hop heq => hj (heq ▸ hkeys op hop)
    rw [hpub.view_of_none hw, KeyState.abort_of_pending (hpending j)]
  | mark txn record commitTs hkey htxn hts hopen =>
    rcases hguard with hclosed | hnone
    · obtain ⟨epoch, hopen⟩ := hopen
      exact absurd hopen (hclosed epoch)
    · exact absurd htxn (hnone txn)

theorem Acts.view_of_quiet (h : kv.WF) (hquiet : ∀ txn, kv.keysOf txn = [])
    (hguard : (¬ keys fenceKey ∧ ∀ epoch, ¬ Open kv epoch) ∨ ∀ txn, ¬ txns txn)
    (ha : Acts keys txns index kv kv') :
    (∀ txn, kv'.keysOf txn = []) ∧ ∀ j, ¬ keys j → kv'.view j = kv.view j := by
  induction ha with
  | refl => exact ⟨hquiet, fun _ _ => rfl⟩
  | @tail kv₁ kv₂ hacts hact ih =>
    have hwf := Acts.wf h hacts
    -- the fence is not written, so the group is still closed
    have hguard' : (∀ epoch, ¬ Open kv₁ epoch) ∨ ∀ txn, ¬ txns txn := by
      refine hguard.imp (fun ⟨hout, hclosed⟩ epoch ⟨fence, hfence, hopen⟩ => ?_) id
      refine hclosed epoch ⟨fence, ?_, hopen⟩
      rw [readFence, ← lookup_eq_of_commits h hwf (by rw [ih.2 fenceKey hout])]
      exact hfence
    obtain ⟨hq, hview⟩ := hact.view_of_quiet hwf ih.1 hguard'
    exact ⟨hq, fun j hj => by rw [hview j hj, ih.2 j hj]⟩

end Closed

namespace ShardCommand

theorem not_actsFor_of_records_fenceKey {cmd : ShardCommand} (h : cmd.records fenceKey)
    (txn : TxnId) : ¬ cmd.actsFor txn := by
  rcases of_records_fenceKey h with ⟨_, _, rfl⟩ | ⟨_, _, rfl⟩ | ⟨_, _, hcmd⟩
  · exact List.not_mem_nil
  · exact List.not_mem_nil
  unfold cancels at hcmd
  split at hcmd
  · exact List.not_mem_nil
  · exact List.not_mem_nil
  · cases hcmd

/-- The epoch a mutation of user data is stamped with. -/
def stamp : ShardCommand → Option UInt64
  | epochWriteV1 epoch _ | epochPrepareV2 epoch _ _ | epochRepairV2 epoch _ _ _
  | epochWriteBatchV1 epoch _ _ | epochCommitBatchV1 epoch _ => some epoch
  | txnParticipantV1 cmd => some cmd.epoch
  | _ => none

/-- The delivery of an abort to a participant. -/
def aborts : ShardCommand → Prop
  | txnParticipantV1 cmd => ∃ decision, cmd.operation = .resolve decision ∧ decision.phase = .aborted
  | _ => False

/-- The delivery of a commit that the participant has recorded already. -/
def repeats (kv : Kv) : ShardCommand → Prop
  | txnParticipantV1 cmd => ∃ decision ts, cmd.operation = .resolve decision ∧
      decision.phase = .committed ts ∧
        Participant.read kv cmd.txnId = .ok (some (cmd.record (.committed ts)))
  | _ => False

end ShardCommand

/-! ## Frozen groups -/

structure Frozen (s : Replica) (fence : Option ParticipantFence) : Prop where
  settled : Settled s
  read : readFence s.kv = .ok fence
  quiet : fence.any (·.closed) = true → ∀ txn, s.kv.keysOf txn = []

theorem FenceMove.kept_of_closed (h : FenceMove e kv' (some f) new) (hclosed : f.closed = true)
    (hopens : e.response.success = true → ¬ e.cmd.opens f.operationId) : new = some f := by
  have hnot : ∀ {epoch : UInt64}, ¬ EpochIsOpen (some f) epoch := fun hopen => hopen.2 hclosed
  cases h with
  | kept => rfl
  | acquired operation expected next hcmd hopen => exact absurd hopen hnot
  | released operation epoch hcmd haccepted hold =>
    cases hold
    exact absurd (by rw [hcmd]; rfl) (hopens haccepted)
  | sealed operation expected next hcmd haccepted hnext hold =>
    rcases hold with hold | hopen
    · cases hold
      exact absurd hcmd.opens (hopens haccepted)
    · exact absurd hopen hnot

section Frozen

variable [Hashes] [Serde] {s s' t : Replica} {e : AppliedEntry} {fence : Option ParticipantFence}
  {before after : List AppliedEntry}

theorem Frozen.view_of_closed (h : Frozen s fence) (hclosed : fence.any (·.closed) = true)
    (hs : s.Step e s') :
    (∀ txn, s'.kv.keysOf txn = []) ∧ ∀ j, ¬ e.cmd.records j → s'.kv.view j = s.kv.view j := by
  obtain ⟨-, -, happly⟩ := Replica.next_eq_some hs
  refine Acts.view_of_quiet h.settled.wf (h.quiet hclosed) ?_ (Group.apply_acts h.settled.wf happly)
  by_cases hrec : e.cmd.records fenceKey
  · exact .inr (ShardCommand.not_actsFor_of_records_fenceKey hrec)
  refine .inl ⟨hrec, fun epoch ⟨f, hf, hopen⟩ => ?_⟩
  have hread : readFence s.group.kv = .ok fence := h.read
  cases hread.symm.trans hf
  exact hopen.2 hclosed

theorem Frozen.step (h : Frozen s fence) (hs : s.Step e s') :
    ∃ new, Frozen s' new ∧ FenceMove e s'.kv fence new := by
  obtain ⟨new, hread, hmove⟩ := fence_step h.settled hs h.read
  refine ⟨new, ⟨h.settled.step hs, hread, fun hclosed => ?_⟩, hmove⟩
  cases hmove with
  | kept => exact (h.view_of_closed hclosed hs).1
  | acquired operation expected next hcmd hopen hnext hquiet => exact hquiet
  | released operation epoch => cases hclosed
  | sealed operation expected next => cases hclosed

theorem frozen_of_run (h : Run Replica.Step (.empty name store) before s) :
    ∃ fence, Frozen s fence := by
  induction h with
  | nil => exact ⟨none, settled_empty name store, rfl, nofun⟩
  | snoc hrun hstep ih =>
    obtain ⟨fence, hf⟩ := ih
    obtain ⟨new, hnew, -⟩ := hf.step hstep
    exact ⟨new, hnew⟩

theorem Frozen.run (h : Frozen s fence) (hrun : Run Replica.Step s after t) :
    ∃ new, Frozen t new ∧ epochOf fence ≤ epochOf new := by
  induction hrun with
  | nil => exact ⟨fence, h, UInt64.le_refl _⟩
  | snoc hrun hstep ih =>
    obtain ⟨mid, hmid, hle⟩ := ih
    obtain ⟨new, hnew, hmove⟩ := hmid.step hstep
    exact ⟨new, hnew, UInt64.le_trans hle hmove.epoch_le⟩

/-- A mutation of an earlier epoch is rejected, but for the delivery of an abort,
by which no version becomes visible, and for a repeated commit, which changes
nothing. -/
theorem Frozen.stamp_lt (h : Frozen s fence) (hs : s.Step e s')
    (hstamp : e.cmd.stamp = some epoch) (hlt : epoch < epochOf fence) :
    e.response.success = false ∨ (e.cmd.aborts ∧
      ∀ j, isControlKey j = false → (s'.kv.view j).commits = (s.kv.view j).commits) ∨
    (e.cmd.repeats s.kv ∧ s'.kv = s.kv) := by
  have hclosed : ¬ Open s.group.kv epoch := by
    rintro ⟨f, hf, hopen⟩
    have hread : readFence s.group.kv = .ok fence := h.read
    cases hread.symm.trans hf
    rw [hopen.1] at hlt
    exact UInt64.lt_irrefl _ hlt
  have hwf : s.group.kv.WF := h.settled.wf
  obtain ⟨-, -, happly⟩ := Replica.next_eq_some hs
  rcases Group.apply_cases happly with ⟨-, hr⟩ | ⟨c, kv', hc, -, -, -⟩ | ⟨c, kv', hc, hx, hs'⟩ |
    ⟨c, kv', hc, -, -, -⟩ | ⟨hc, -, -, hx⟩
  · exact .inl hr
  · rw [hc] at hstamp
    cases hstamp
  · rw [hc] at hstamp
    cases hstamp
    obtain ⟨old, hread, happlied⟩ := Participant.apply_cases hwf hx
    rw [hc, Replica.kv, hs']
    rcases happlied.stale hwf hclosed with hr | ⟨decision, hop, ⟨hd, hview⟩ | ⟨ts, hd, rfl, hkv⟩⟩
    · exact .inl hr
    · exact .inr (.inl ⟨⟨decision, hop, hd⟩, hview⟩)
    · exact .inr (.inr ⟨⟨decision, ts, hop, hd, hread⟩, hkv⟩)
  · rw [hc] at hstamp
    cases hstamp
  · left
    generalize e.cmd = cmd at hstamp hc hx
    cases cmd with
    | epochWriteV1 n mutation =>
      cases hstamp
      obtain ⟨kv', hx, -⟩ := Group.withKv_eq_ok hx
      rcases applyEpochWrite_cases hwf hx with ⟨-, hr | hopen⟩ | ⟨-, hopen, -⟩
      · exact hr
      all_goals exact absurd hopen hclosed
    | epochPrepareV2 n txn expect =>
      cases hstamp
      obtain ⟨kv', hx, -⟩ := Group.withKv_eq_ok hx
      obtain ⟨-, hr | hopen⟩ := applyEpochPrepare_cases hx
      · exact hr
      · exact absurd hopen hclosed
    | epochRepairV2 n txn key replacement =>
      cases hstamp
      obtain ⟨kv', hx, -⟩ := Group.withKv_eq_ok hx
      rcases applyRepair_cases hx with ⟨-, hr⟩ | ⟨-, hopen, -⟩
      · exact hr
      · exact absurd hopen hclosed
    | epochWriteBatchV1 n txn operations =>
      cases hstamp
      obtain ⟨kv', hx, -⟩ := Group.withKv_eq_ok hx
      rcases applyWriteBatch_cases hwf hx with ⟨-, hr⟩ | ⟨-, hopen, -⟩
      · exact hr
      · exact absurd hopen hclosed
    | epochCommitBatchV1 n commits =>
      cases hstamp
      obtain ⟨kv', hx, -⟩ := Group.withKv_eq_ok hx
      rcases applyCommitBatch_cases hx with ⟨-, hr⟩ | ⟨-, hopen, -⟩
      · exact hr
      · exact absurd hopen hclosed
    | txnParticipantV1 c => cases hc
    | _ => cases hstamp

/-- A group that is closed by an operation keeps its data until the operation's
release or seal is accepted. -/
theorem Frozen.run_closed (h : Frozen s (some f)) (hclosed : f.closed = true)
    (hrun : Run Replica.Step s after t)
    (hopens : ∀ e ∈ after, e.response.success = true → ¬ e.cmd.opens f.operationId) :
    Frozen t (some f) ∧ ∀ j, isControlKey j = false → ¬ Backup.journalPrefix <+: j →
      t.kv.view j = s.kv.view j := by
  induction hrun with
  | nil => exact ⟨h, fun _ _ _ => rfl⟩
  | @snoc t u as a hrun hstep ih =>
    have hlast : a ∈ as ++ [a] := List.mem_append_right _ (List.mem_singleton.mpr rfl)
    obtain ⟨ht, hview⟩ := ih fun e he => hopens e (List.mem_append_left _ he)
    obtain ⟨new, hnew, hmove⟩ := ht.step hstep
    obtain rfl := hmove.kept_of_closed hclosed (hopens a hlast)
    refine ⟨hnew, fun j hj hbackup => ?_⟩
    rw [(ht.view_of_closed hclosed hstep).2 j, hview j hj hbackup]
    intro hrec
    rw [ShardCommand.isControlKey_of_records hrec hbackup] at hj
    cases hj

/-- One migration at a time has a group: until a release or a seal of the operation that closed it
is accepted, the fence stays as it is and acquisitions of other operations are rejected. -/
theorem fence_held_alone {name : Bytes} {store : Option MemMetaStore}
    (hbefore : Run Replica.Step (.empty name store) before s)
    (hread : readFence s.kv = .ok (some f)) (hclosed : f.closed = true)
    (hafter : Run Replica.Step s after t)
    (hopens : ∀ e ∈ after, e.response.success = true → ¬ e.cmd.opens f.operationId) :
    readFence t.kv = .ok (some f) ∧ ∀ e ∈ after, ∀ operation epoch,
      e.cmd = .migrationV1 (.acquire operation epoch) → operation ≠ f.operationId →
        e.response.success = false := by
  suffices hheld : Settled t ∧ readFence t.kv = .ok (some f) ∧ ∀ e ∈ after, ∀ operation epoch,
      e.cmd = .migrationV1 (.acquire operation epoch) → operation ≠ f.operationId →
        e.response.success = false from hheld.2
  induction hafter with
  | nil => exact ⟨settled_of_run hbefore, hread, by simp⟩
  | @snoc t u as a hrun hstep ih =>
    obtain ⟨ht, hread, hall⟩ := ih fun e he => hopens e (List.mem_append_left _ he)
    obtain ⟨new, hnew, hmove⟩ := fence_step ht hstep hread
    obtain rfl := hmove.kept_of_closed hclosed (hopens a (by simp))
    refine ⟨ht.step hstep, hnew, fun e he operation epoch hcmd hne => ?_⟩
    rcases List.mem_append.mp he with he | he
    · exact hall e he operation epoch hcmd hne
    rw [List.mem_singleton.mp he] at hcmd ⊢
    refine Bool.eq_false_of_not_eq_true fun hr => ?_
    rcases ht.acquire_step hstep hread hcmd with ⟨-, haccepted⟩ | ⟨_, -, hopen, -⟩
    · obtain ⟨next, -, hfence⟩ := haccepted hr
      exact hne (congrArg ParticipantFence.operationId (Option.some.inj hfence)).symm
    · exact hopen.2 hclosed

end Frozen

open Fixed in
/-- A second migration asks for the group of a first one. -/
theorem second_acquire_rejected :
    ∃ s t, Run Replica.Step (.empty [] none) [⟨1, .migrationV1 (.acquire 7 0), accepted⟩] s ∧
      Run Replica.Step s [⟨2, .migrationV1 (.acquire 8 1),
        Migration.reject "participant already belongs to a migration"⟩] t ∧
      readFence t.kv = .ok (some ⟨7, 1, true⟩) := by
  obtain ⟨s, hs, hread, t, ht, -⟩ : ∃ s, (Replica.empty [] none).next
      ⟨1, .migrationV1 (.acquire 7 0), accepted⟩ = some s ∧
        readFence s.kv = .ok (some ⟨7, 1, true⟩) ∧
        ∃ t, s.next ⟨2, .migrationV1 (.acquire 8 1),
          Migration.reject "participant already belongs to a migration"⟩ = some t ∧ True := by
    decide +kernel
  refine ⟨s, t, .single hs, .single ht, (fence_held_alone (.single hs) hread rfl (.single ht) ?_).1⟩
  simp [ShardCommand.opens]

end NodusDb.Raft
