import NodusDb.Lib.Layered
import NodusDb.Lsm.Ops

/-!
# Mutations side by side

The live memtable, the table a replay of the log would give and the in-memory reference hold the
same pending writes. A mutation looks at nothing else, so it does the same to all of them
(`grows_mutateTable`), and so does the replay of what it logs (`view_replay_logged`), savepoints
apart.
-/

namespace NodusDb

/-- Two states of a key change alike: equal pending writes, equal new commits. -/
structure KeyState.Grow {V : Type} (a a' b b' : KeyState V) : Prop where
  pending : a'.pending = b'.pending
  commits : ∃ added, a'.commits = a.commits ++ added ∧ b'.commits = b.commits ++ added

namespace KeyState

variable {V : Type} {a b : KeyState V}

theorem Grow.refl (h : a.pending = b.pending) : Grow a a b b :=
  ⟨h, [], (List.append_nil _).symm, (List.append_nil _).symm⟩

theorem Grow.trans (h : Grow a a' b b') (h' : Grow a' a'' b' b'') :
    Grow a a'' b b'' := by
  obtain ⟨added, ha, hb⟩ := h.commits
  obtain ⟨added', ha', hb'⟩ := h'.commits
  exact ⟨h'.pending, added ++ added', by rw [ha', ha, List.append_assoc],
    by rw [hb', hb, List.append_assoc]⟩

theorem owner_congr (h : a.pending = b.pending) : a.owner = b.owner := by
  rw [owner, owner, h]

theorem blocks_congr (h : a.pending = b.pending) (t : TxnId) : a.blocks t ↔ b.blocks t := by
  rw [blocks, blocks, owner_congr h]

theorem grow_setPending (p : Option (TxnId × Option V)) :
    Grow a (a.setPending p) b (b.setPending p) :=
  ⟨rfl, [], (List.append_nil _).symm, (List.append_nil _).symm⟩

section

variable (h : a.pending = b.pending)
include h

theorem grow_write (t : TxnId) (v : Option V) : Grow a (a.write t v) b (b.write t v) := by
  unfold write
  by_cases hb : a.blocks t
  · rw [if_pos hb, if_pos ((blocks_congr h t).mp hb)]
    exact .refl h
  · rw [if_neg hb, if_neg (mt (blocks_congr h t).mpr hb)]
    exact grow_setPending _

theorem grow_abort (t : TxnId) : Grow a (a.abort t) b (b.abort t) := by
  unfold abort
  rw [owner_congr h]
  split
  · exact grow_setPending _
  · exact .refl h

theorem grow_replace (t : TxnId) (r : IntentReplacement V) :
    Grow a (a.replace t r) b (b.replace t r) := by
  cases r with
  | put v => exact grow_write h t (some v)
  | delete => exact grow_write h t none
  | clear => exact grow_abort h t

theorem grow_commit (t : TxnId) (ts : Nat) : Grow a (a.commit t ts) b (b.commit t ts) := by
  unfold commit
  cases hp : b.pending with
  | none =>
    rw [hp] at h
    rw [h]
    exact .refl (h.trans hp.symm)
  | some p =>
    rw [hp] at h
    rw [h]
    show Grow a (if p.1 = t then a.addCommit t p.2 ts else a) b
      (if p.1 = t then b.addCommit t p.2 ts else b)
    split
    · exact ⟨rfl, [(MvccValue.intent t p.2).commitAt ts], rfl, rfl⟩
    · exact .refl (h.trans hp.symm)

end

end KeyState

namespace Table

variable {V : Type} {a b : Table V}

def SamePending (a b : Table V) : Prop := ∀ k, (a.view k).pending = (b.view k).pending

def Grows (a a' b b' : Table V) : Prop :=
  ∀ k, KeyState.Grow (a.view k) (a'.view k) (b.view k) (b'.view k)

theorem Grows.samePending (h : Grows a a' b b') : a'.SamePending b' :=
  fun k => (h k).pending

theorem Grows.trans (h : Grows a a' b b') (h' : Grows a' a'' b' b'') :
    Grows a a'' b b'' :=
  fun k => (h k).trans (h' k)

theorem SamePending.grows (h : a.SamePending b) : Grows a a b b := fun k => .refl (h k)

theorem grows_replayIntent (ha : a.WF) (hb : b.WF) (h : a.SamePending b) (t : TxnId)
    (key : Bytes) (v : Option V) (now now' : Nat) :
    Grows a (a.replayIntent t key v now) b (b.replayIntent t key v now') := by
  intro k
  rw [view_replayIntent ha, view_replayIntent hb]
  split
  next hk =>
    rw [hk]
    exact KeyState.grow_write (h key) t v
  · exact .refl (h k)

theorem grows_replayAll (ops : List (IntentOperation V)) (ha : a.WF) (hb : b.WF)
    (h : a.SamePending b) (t : TxnId) (now now' : Nat) :
    Grows a (a.replayAll t ops now) b (b.replayAll t ops now') := by
  induction ops generalizing a b with
  | nil => exact h.grows
  | cons op ops ih =>
    have hop := grows_replayIntent ha hb h t op.key op.value now now'
    exact hop.trans (ih ha.replayIntent hb.replayIntent hop.samePending)

theorem grows_commit (ha : a.WF) (hb : b.WF) (h : a.SamePending b) (t : TxnId) (ts : Nat) :
    Grows a (a.commit t ts) b (b.commit t ts) := by
  intro k
  rw [view_commit ha, view_commit hb]
  exact KeyState.grow_commit (h k) t ts

theorem grows_commitBatch (commits : List (TxnId × Nat)) (ha : a.WF) (hb : b.WF)
    (h : a.SamePending b) : Grows a (a.commitBatch commits) b (b.commitBatch commits) := by
  induction commits generalizing a b with
  | nil => exact h.grows
  | cons c commits ih =>
    have hc := grows_commit ha hb h c.1 c.2
    exact hc.trans (ih (ha.commit c.2) (hb.commit c.2) hc.samePending)

theorem grows_abort (ha : a.WF) (hb : b.WF) (h : a.SamePending b) (t : TxnId) :
    Grows a (a.abort t) b (b.abort t) := by
  intro k
  rw [view_abort ha, view_abort hb]
  exact KeyState.grow_abort (h k) t

theorem grows_replaceIntent (ha : a.WF) (hb : b.WF) (h : a.SamePending b) (t : TxnId)
    (key : Bytes) (r : IntentReplacement V) (now : Nat) :
    Grows a (a.replaceIntent t key r now).1 b (b.replaceIntent t key r now).1 := by
  intro k
  rw [view_replaceIntent ha, view_replaceIntent hb]
  split
  next hk =>
    rw [hk]
    exact KeyState.grow_replace (h key) t r
  · exact .refl (h k)

end Table

namespace Lsm

variable {a b : Table Bytes}

theorem blocked_congr (h : a.SamePending b) (t : TxnId) (ops : List (IntentOperation Bytes)) :
    (∃ op ∈ ops, (a.view op.key).blocks t) ↔ ∃ op ∈ ops, (b.view op.key).blocks t :=
  exists_congr fun op => and_congr_right fun _ => KeyState.blocks_congr (h op.key) t

theorem grows_write (ha : a.WF) (hb : b.WF) (h : a.SamePending b) (t : TxnId) (key : Bytes)
    (v : Option Bytes) (now : Nat) :
    Table.Grows a (if (a.view key).blocks t then a else a.replayIntent t key v now)
      b (if (b.view key).blocks t then b else b.replayIntent t key v now) := by
  by_cases hbl : (a.view key).blocks t
  · rw [if_pos hbl, if_pos ((KeyState.blocks_congr (h key) t).mp hbl)]
    exact h.grows
  · rw [if_neg hbl, if_neg (mt (KeyState.blocks_congr (h key) t).mpr hbl)]
    exact Table.grows_replayIntent ha hb h t key v now now

theorem grows_mutateTable (ha : a.WF) (hb : b.WF) (h : a.SamePending b) (m : Mutation) :
    Table.Grows a (mutateTable a m) b (mutateTable b m) := by
  cases m with
  | writeIntent t key v now =>
    rw [mutateTable_writeIntent ha, mutateTable_writeIntent hb]
    exact grows_write ha hb h t key (some v) now
  | deleteIntent t key now =>
    rw [mutateTable_deleteIntent ha, mutateTable_deleteIntent hb]
    exact grows_write ha hb h t key none now
  | writeIntentBatch t ops now =>
    rw [mutateTable_writeIntentBatch ha, mutateTable_writeIntentBatch hb]
    by_cases hbl : ∃ op ∈ ops, (a.view op.key).blocks t
    · rw [if_pos hbl, if_pos ((blocked_congr h t ops).mp hbl)]
      exact h.grows
    · rw [if_neg hbl, if_neg (mt (blocked_congr h t ops).mpr hbl)]
      exact Table.grows_replayAll ops ha hb h t now now
  | replaceIntent t key r now => exact Table.grows_replaceIntent ha hb h t key r now
  | commit t ts => exact Table.grows_commitBatch _ ha hb h
  | commitBatch commits => exact Table.grows_commitBatch commits ha hb h
  | abort t => exact Table.grows_abort ha hb h t

def Mutation.isReplace : Mutation → Bool
  | .replaceIntent _ _ _ _ => true
  | _ => false

theorem view_replay_logged (hs : s.WF) (hz : z.WF) (h : s.SamePending z) (now : Nat)
    (m : Mutation) (hm : m.isReplace = false) (k : Bytes) :
    (replayRecords now z (logged s m)).view k = (mutateTable z m).view k := by
  have hwrite : ∀ t key (v : Option Bytes) (n n' : Nat), (z.replayIntent t key v n).view k =
      (if (z.view key).blocks t then z else z.replayIntent t key v n').view k := by
    intro t key v n n'
    rw [Table.view_replayIntent hz]
    split
    next hk =>
      split
      next hb => rw [hk, KeyState.write, if_pos hb]
      · rw [Table.view_replayIntent hz, if_pos hk]
    next hk =>
      split
      · rfl
      · rw [Table.view_replayIntent hz, if_neg hk]
  cases m with
  | writeIntent t key v n =>
    rw [mutateTable_writeIntent hz]
    exact hwrite t key (some v) n n
  | deleteIntent t key n =>
    rw [mutateTable_deleteIntent hz]
    exact hwrite t key none n n
  | writeIntentBatch t ops n =>
    rw [mutateTable_writeIntentBatch hz, logged_writeIntentBatch hs]
    by_cases hbl : ∃ op ∈ ops, (s.view op.key).blocks t
    · rw [if_pos hbl, if_pos ((blocked_congr h t ops).mp hbl)]
      rfl
    · rw [if_neg hbl, if_neg (mt (blocked_congr h t ops).mpr hbl), replayRecords_ofOperation]
  | replaceIntent t key r n => cases hm
  | commit t ts => rfl
  | commitBatch commits =>
    cases commits with
    | nil => rfl
    | cons c commits => rfl
  | abort t => rfl

theorem view_replayRecords (records : List WalRecord) (ha : a.WF) (hb : b.WF)
    (h : ∀ k, a.view k = b.view k) (k : Bytes) :
    (replayRecords now a records).view k = (replayRecords now' b records).view k := by
  induction records generalizing a b with
  | nil => exact h k
  | cons r records ih =>
    refine ih (wf_replayRecord ha r) (wf_replayRecord hb r) fun k => ?_
    have hcommits : ∀ (commits : List (TxnId × Nat)) {a b : Table Bytes}, a.WF → b.WF →
        (∀ k, a.view k = b.view k) →
        (a.commitBatch commits).view k = (b.commitBatch commits).view k := by
      intro commits
      induction commits with
      | nil => exact fun _ _ h => h k
      | cons c commits ihc =>
        intro a b ha hb h
        refine ihc (ha.commit c.2) (hb.commit c.2) fun j => ?_
        rw [Table.view_commit ha, Table.view_commit hb, h j]
    cases r with
    | writeIntent t key v at' | deleteIntent t key at' =>
      show (a.replayIntent _ _ _ _).view k = (b.replayIntent _ _ _ _).view k
      rw [Table.view_replayIntent ha, Table.view_replayIntent hb, h k, h key]
    | commitTxn t ts => exact hcommits [(t, ts)] ha hb h
    | commitTxnBatchV1 commits => exact hcommits commits ha hb h
    | abortTxn t =>
      show (a.abort t).view k = (b.abort t).view k
      rw [Table.view_abort ha, Table.view_abort hb, h k]
    | _ => exact h k

end Lsm

end NodusDb
