import NodusDb.Storage.Mem

/-!
# Published writes

A transaction that writes some keys and commits at once is a publication. When
its timestamp is not below what the keys have, a later read sees the values it
wrote; all other keys read as before.
-/

namespace NodusDb

open List

variable {V : Type}

namespace KeyState

def read (s : KeyState V) (readTs : Nat) : Option V :=
  (maxByKey (·.version) (s.commits.filter (·.version ≤ readTs))).bind (·.value)

theorem filter_isVisible (s : KeyState V) (readTs : Nat) :
    s.chain.versions.filter (·.isVisible readTs) = s.commits.filter (·.version ≤ readTs) := by
  rw [chain, filter_append]
  have hpending : (s.pending.map fun p => MvccValue.intent p.1 p.2).toList.filter
      (·.isVisible readTs) = [] := by
    cases s.pending <;> rfl
  rw [hpending, append_nil]
  refine filter_congr fun m hm => ?_
  simp [MvccValue.isVisible, s.committed m hm]

theorem read_chain (s : KeyState V) (readTs : Nat) : s.chain.read readTs = s.read readTs := by
  rw [VersionChain.read_eq, VersionChain.newestVisible, filter_isVisible, read]

variable {s : KeyState V} {txnId : TxnId} {value : Option V} {ts readTs : Nat}

theorem read_addCommit (hmax : ∀ m ∈ s.commits, m.version ≤ ts) (hle : ts ≤ readTs) :
    (s.addCommit txnId value ts).read readTs = value := by
  have hlast : ((MvccValue.intent txnId value).commitAt ts).version = ts := rfl
  rw [read, addCommit, filter_append, filter_cons_of_pos (by simpa [hlast] using hle),
    filter_nil, maxByKey_append_singleton]
  · rfl
  · intro m hm
    exact hmax m (mem_filter.mp hm).1

theorem read_addCommit_of_lt (hlt : readTs < ts) :
    (s.addCommit txnId value ts).read readTs = s.read readTs := by
  have hlast : ((MvccValue.intent txnId value).commitAt ts).version = ts := rfl
  rw [read, addCommit, filter_append, filter_cons_of_neg (by simpa [hlast] using hlt),
    filter_nil, append_nil, read]

theorem write_write (u : Option V) : (s.write txnId u).write txnId value = s.write txnId value := by
  by_cases hb : s.blocks txnId
  · simp only [write, if_pos hb]
  have hown : ¬ (s.setPending (some (txnId, u))).blocks txnId := fun h => h.2 rfl
  simp only [write, if_neg hb, if_neg hown]
  rfl

theorem commit_write (hb : ¬ s.blocks txnId) :
    (s.write txnId value).commit txnId ts = s.addCommit txnId value ts := by
  rw [write, if_neg hb]
  exact if_pos rfl

theorem not_blocks_of_pending (h : s.pending = none) : ¬ s.blocks txnId := by
  rintro ⟨hne, -⟩
  rw [owner, h] at hne
  exact hne rfl

@[simp] theorem commits_abort : (s.abort txnId).commits = s.commits := by
  unfold abort
  split <;> rfl

theorem abort_of_pending (h : s.pending = none) : s.abort txnId = s := by
  refine abort_of_owner_ne ?_
  rw [owner, h]
  rintro ⟨⟩

theorem owner_abort_ne : (s.abort txnId).owner ≠ some txnId := by
  unfold abort
  split
  · nofun
  next h => exact h

theorem abort_abort :
    (s.abort txnId).abort txnId = s.abort txnId := abort_of_owner_ne owner_abort_ne

theorem pending_abort_of_pending (h : s.pending = none) : (s.abort txnId).pending = none := by
  rw [abort_of_pending h, h]

end KeyState

/-! ## Publications -/

/-- What a list of writes leaves pending on a key: its last write there. -/
def written (key : Bytes) : List (IntentOperation V) → Option (Option V)
  | [] => none
  | op :: ops => (written key ops).or (if op.key = key then some op.value else none)

variable {key : Bytes} {ops : List (IntentOperation V)}

theorem written_eq_none : written key ops = none ↔ ∀ op ∈ ops, op.key ≠ key := by
  induction ops with
  | nil => simp [written]
  | cons op ops ih => simp [written, ih, and_comm]

theorem written_append :
    written key (ops ++ ops') = (written key ops').or (written key ops) := by
  induction ops with
  | nil => exact (Option.or_none).symm
  | cons op ops ih => rw [cons_append, written, ih, written, Option.or_assoc]

theorem mem_of_written (h : written key ops = some v) :
    ∃ op ∈ ops, op.key = key ∧ op.value = v := by
  induction ops with
  | nil => cases h
  | cons op ops ih =>
    rw [written, Option.or_eq_some_iff] at h
    rcases h with h | ⟨-, h⟩
    · obtain ⟨op', hop, heq⟩ := ih h
      exact ⟨op', mem_cons_of_mem op hop, heq⟩
    · obtain ⟨hkey, heq⟩ := Option.ite_none_right_eq_some.mp h
      exact ⟨op, mem_cons_self, hkey, Option.some.inj heq⟩

namespace Table

variable {s : Table V} {txnId : TxnId} {ops : List (IntentOperation V)} {ts now : Nat}

theorem view_replayAll (h : s.WF) (j : Bytes) :
    (s.replayAll txnId ops now).view j =
      match written j ops with
      | some v => (s.view j).write txnId v
      | none => s.view j := by
  induction ops generalizing s with
  | nil => rfl
  | cons op ops ih =>
    rw [replayAll, foldl_cons, ← replayAll, ih h.replayIntent, view_replayIntent h, written]
    by_cases hj : op.key = j
    · subst hj
      rw [if_pos rfl, if_pos rfl]
      cases written op.key ops with
      | none => rfl
      | some v => exact KeyState.write_write _
    · rw [if_neg (Ne.symm hj), if_neg hj, Option.or_none]

theorem keysOf_replayAll_of_ne (h : s.WF) (hu : u ≠ txnId) :
    (s.replayAll txnId ops now).keysOf u = s.keysOf u := by
  induction ops generalizing s with
  | nil => rfl
  | cons op ops ih =>
    rw [replayAll, foldl_cons, ← replayAll, ih h.replayIntent, keysOf_replayIntent h, if_neg hu]

def publish (s : Table V) (txnId : TxnId) (ops : List (IntentOperation V)) (ts : Nat) : Table V :=
  (s.replayAll txnId ops 0).commit txnId ts

theorem WF.publish (h : s.WF) : (s.publish txnId ops ts).WF :=
  (h.replayAll ops).commit ts

theorem view_publish (h : s.WF) (hidle : ∀ j, (s.view j).owner ≠ some txnId)
    (hfree : ∀ op ∈ ops, ¬ (s.view op.key).blocks txnId) (j : Bytes) :
    (s.publish txnId ops ts).view j =
      match written j ops with
      | some v => (s.view j).addCommit txnId v ts
      | none => s.view j := by
  rw [publish, view_commit (h.replayAll ops), view_replayAll h]
  cases hw : written j ops with
  | none => exact KeyState.commit_of_owner_ne (hidle j)
  | some v =>
    obtain ⟨op, hop, rfl, -⟩ := mem_of_written hw
    exact KeyState.commit_write (hfree op hop)

theorem keysOf_publish (h : s.WF) (u : TxnId) :
    (s.publish txnId ops ts).keysOf u = if u = txnId then [] else s.keysOf u := by
  rw [publish, keysOf_commit]
  split
  · rfl
  next hu => exact keysOf_replayAll_of_ne h hu

end Table

namespace MemKvEngine

variable {s : MemKvEngine V} {txnId : TxnId} {ops : List (IntentOperation V)} {ts readTs : Nat}

theorem get_eq (h : s.WF) (key : Bytes) (readTs : Nat) :
    s.get key readTs = (s.view key).read readTs := by
  rw [← KeyState.read_chain, ← h.chainAt_eq, get_eq_read]

theorem get_eq_of_commits {t : MemKvEngine V} (hs : s.WF) (ht : t.WF) {key : Bytes}
    (h : (s.view key).commits = (t.view key).commits) : s.get key readTs = t.get key readTs := by
  rw [get_eq hs, get_eq ht, KeyState.read, h, KeyState.read]

theorem get_publish (h : s.WF) (hidle : ∀ j, (s.view j).owner ≠ some txnId)
    (hfree : ∀ op ∈ ops, ¬ (s.view op.key).blocks txnId) (hle : ts ≤ readTs)
    (hmax : written j ops ≠ none → ∀ m ∈ (s.view j).commits, m.version ≤ ts) :
    get (s.publish txnId ops ts) j readTs = (written j ops).getD (s.get j readTs) := by
  rw [get_eq h.publish, Table.view_publish h hidle hfree]
  cases hw : written j ops with
  | none => exact (get_eq h j readTs).symm
  | some v => exact KeyState.read_addCommit (hmax (by rw [hw]; nofun)) hle

end MemKvEngine

end NodusDb
