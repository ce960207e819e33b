import NodusDb.Raft.Replica

/-!
# Intents of a transaction

A command that does not act for a transaction leaves the transaction's pending
writes where they are and makes none of them a version; no command removes a
version.
-/

namespace NodusDb.Raft

open KeyState

variable {kv kv' : Kv} {j : Bytes} {txn : TxnId} {value : Option Value}

/-- The versions of a key: those before, and new ones that are not the
transaction's. -/
structure Grows (txn : TxnId) (s s' : KeyState Value) : Prop where
  kept : ∀ m ∈ s.commits, m ∈ s'.commits
  foreign : ∀ m ∈ s'.commits, m ∈ s.commits ∨ m.txnId ≠ some txn

namespace Grows

variable {s s' s'' : KeyState Value} {u : TxnId} {ts : Nat}

theorem of_commits (h : s'.commits = s.commits) : Grows txn s s' := by
  constructor
  · rw [h]
    exact fun _ hm => hm
  · rw [h]
    exact fun _ hm => .inl hm

theorem trans (h : Grows txn s s') (h' : Grows txn s' s'') : Grows txn s s'' := by
  refine ⟨fun m hm => h'.kept m (h.kept m hm), fun m hm => ?_⟩
  rcases h'.foreign m hm with hm | hne
  · exact h.foreign m hm
  · exact .inr hne

theorem addCommit (hne : u ≠ txn) : Grows txn s (s.addCommit u value ts) := by
  refine ⟨fun m hm => List.mem_append_left _ hm, fun m hm => ?_⟩
  rcases List.mem_append.mp hm with hm | hm
  · exact .inl hm
  right
  rw [List.mem_singleton.mp hm]
  exact fun heq => hne (Option.some.inj heq)

theorem commit (hne : u ≠ txn) : Grows txn s (s.commit u ts) := by
  refine ⟨fun m hm => mem_commits_commit.mpr (.inl hm), fun m hm => ?_⟩
  rcases mem_commits_commit.mp hm with hm | ⟨value, -, rfl⟩
  · exact .inl hm
  · exact .inr fun heq => hne (Option.some.inj heq)

end Grows

namespace Mutation

variable {m : Mutation}

theorem view_run_of_owner (h : kv.WF) (hp : (kv.view j).pending = some (txn, value))
    (hne : txn ∉ m.txns) : (m.run kv).view j = kv.view j := by
  cases m with
  | write u ops =>
    have hb := blocks_of_pending hp fun heq => hne (List.mem_singleton.mpr heq)
    rw [run, Table.view_replayAll h]
    split
    · rw [KeyState.write, if_pos hb]
    · rfl
  | replace u key r =>
    rw [run, Table.view_replaceIntent h]
    split
    next hj =>
      subst hj
      have hb := blocks_of_pending hp fun heq => hne (List.mem_singleton.mpr heq)
      cases r with
      | put value | delete => exact if_pos hb
      | clear => exact Table.abort_of_blocks hb
    · rfl
  | commit commits =>
    refine Table.view_commitBatch_of_owner_ne h commits fun c hc heq => hne ?_
    rw [owner_of_pending hp] at heq
    exact List.mem_map.mpr ⟨c, hc, (Option.some.inj heq).symm⟩
  | abort u =>
    rw [run, Table.view_abort h]
    exact abort_of_pending_ne hp fun heq => hne (List.mem_singleton.mpr heq)

theorem grows_commitBatch (h : kv.WF) (commits : List (TxnId × Nat))
    (hne : txn ∉ commits.map (·.1)) (j : Bytes) :
    Grows txn (kv.view j) ((kv.commitBatch commits).view j) := by
  induction commits generalizing kv with
  | nil => exact .of_commits rfl
  | cons c commits ih =>
    rw [List.map_cons, List.mem_cons, not_or] at hne
    have hone : Grows txn (kv.view j) ((kv.commit c.1 c.2).view j) := by
      rw [Table.view_commit h]
      exact .commit (Ne.symm hne.1)
    exact hone.trans (ih (h.commit c.2) hne.2)

theorem grows_run (h : kv.WF) (hne : txn ∉ m.txns) (j : Bytes) :
    Grows txn (kv.view j) ((m.run kv).view j) := by
  cases m with
  | write u ops =>
    refine .of_commits ?_
    rw [run, Table.view_replayAll h]
    split
    · exact commits_write
    · rfl
  | replace u key r =>
    refine .of_commits ?_
    rw [run, Table.view_replaceIntent h]
    split
    next hj =>
      subst hj
      cases r with
      | put value | delete => exact commits_write
      | clear => exact commits_abort
    · rfl
  | commit commits => exact grows_commitBatch h commits hne j
  | abort u =>
    refine .of_commits ?_
    rw [run, Table.view_abort h, commits_abort]

end Mutation

section Acts

variable [Hashes] {keys : Bytes → Prop} {txns : TxnId → Prop} {index : UInt64}

theorem newV5_ne (hver : txn.version ≠ 5) (name : Bytes) : Hashes.newV5 name ≠ txn := by
  rintro rfl
  exact hver (Hashes.newV5_version name)

theorem Act.view_of_pending (h : kv.WF) (hver : txn.version ≠ 5) (hout : ¬ keys j)
    (htxn : ¬ txns txn) (hp : (kv.view j).pending = some (txn, value))
    (ha : Act keys txns index kv kv') : kv'.view j = kv.view j := by
  cases ha with
  | mutate m hkeys htxns => exact Mutation.view_run_of_owner h hp fun hm => htxn (htxns txn hm)
  | publish name ops hkeys hpub =>
    have hw : written j ops = none :=
      written_eq_none.mpr fun op hop heq => hout (heq ▸ hkeys op hop)
    rw [hpub.view_of_none hw]
    exact abort_of_pending_ne hp (newV5_ne hver name).symm
  | mark u record commitTs hkey hu =>
    have hj : j ≠ Participant.key u := by
      rintro rfl
      exact hout hkey
    rw [view_markCommitted_of_ne h hj]
    exact commit_of_pending_ne hp fun heq => htxn (heq ▸ hu)

theorem Act.grows (h : kv.WF) (hver : txn.version ≠ 5) (htxn : ¬ txns txn)
    (ha : Act keys txns index kv kv') (j : Bytes) : Grows txn (kv.view j) (kv'.view j) := by
  cases ha with
  | mutate m hkeys htxns => exact Mutation.grows_run h (fun hm => htxn (htxns txn hm)) j
  | publish name ops hkeys hpub =>
    rw [hpub.view j]
    split
    · have habort : Grows txn (kv.view j) ((kv.view j).abort (Hashes.newV5 name)) :=
        .of_commits commits_abort
      exact habort.trans (.addCommit (newV5_ne hver name))
    · exact .of_commits commits_abort
  | mark u record commitTs hkey hu hts hopen hfree =>
    have hne : u ≠ txn := fun heq => htxn (heq ▸ hu)
    by_cases hj : j = Participant.key u
    · rw [hj, view_markCommitted_self h hfree]
      exact .addCommit hne
    · rw [view_markCommitted_of_ne h hj]
      exact .commit hne

theorem Acts.view_of_pending (h : kv.WF) (hver : txn.version ≠ 5) (hout : ¬ keys j)
    (htxn : ¬ txns txn) (hp : (kv.view j).pending = some (txn, value))
    (ha : Acts keys txns index kv kv') : kv'.view j = kv.view j := by
  induction ha with
  | refl => rfl
  | tail hacts hact ih =>
    rw [hact.view_of_pending (Acts.wf h hacts) hver hout htxn (by rw [ih, hp]), ih]

theorem Acts.commits (h : kv.WF) (hver : txn.version ≠ 5) (htxn : ¬ txns txn)
    (ha : Acts keys txns index kv kv') (j : Bytes) : Grows txn (kv.view j) (kv'.view j) := by
  induction ha with
  | refl => exact .of_commits rfl
  | tail hacts hact ih => exact ih.trans (hact.grows (Acts.wf h hacts) hver htxn j)

end Acts

end NodusDb.Raft
