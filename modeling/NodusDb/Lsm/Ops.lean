import NodusDb.Lsm.Read

/-!
# Calls of the persistent engine

A run of the engine is a list of calls. `Mutation` has the calls that write or
resolve intents, which an in-memory engine understands too; `Op` adds the
maintenance calls and a clean reopen of the data directory.
-/

namespace NodusDb.Lsm

inductive Mutation
  | writeIntent (txnId : TxnId) (key value : Bytes) (now : Nat)
  | deleteIntent (txnId : TxnId) (key : Bytes) (now : Nat)
  | writeIntentBatch (txnId : TxnId) (ops : List (IntentOperation Bytes)) (now : Nat)
  | replaceIntent (txnId : TxnId) (key : Bytes) (replacement : IntentReplacement Bytes) (now : Nat)
  | commit (txnId : TxnId) (commitTs : Nat)
  | commitBatch (commits : List (TxnId × Nat))
  | abort (txnId : TxnId)
  deriving DecidableEq, Repr

inductive Op
  | mutate (m : Mutation)
  | flush
  | compact
  | garbageCollect (watermark : Nat)
  | setFlushThreshold (bytes : Nat)
  | reopen (now : Nat)
  deriving DecidableEq, Repr

namespace LsmKvEngine

variable [ChainCodec]

def mutate (s : LsmKvEngine) : Mutation → LsmKvEngine × Outcome
  | .writeIntent txnId key value now => s.writeIntent txnId key value now
  | .deleteIntent txnId key now => s.deleteIntent txnId key now
  | .writeIntentBatch txnId ops now => s.writeIntentBatch txnId ops now
  | .replaceIntent txnId key replacement now => s.replaceIntent txnId key replacement now
  | .commit txnId commitTs => s.commit txnId commitTs
  | .commitBatch commits => s.commitBatch commits
  | .abort txnId => s.abort txnId

/-- The state after a call; `none` when a reopen fails. -/
def apply (s : LsmKvEngine) : Op → Option LsmKvEngine
  | .mutate m => some (s.mutate m).1
  | .flush => some s.flush.1
  | .compact => some s.compact.1
  | .garbageCollect watermark => some (s.garbageCollect watermark).1
  | .setFlushThreshold bytes => some (s.setFlushThreshold bytes)
  | .reopen now => (withWal s.disk now).toOption

/-- A fresh engine: `with_wal` on an empty directory. -/
def fresh : LsmKvEngine :=
  ⟨⟨OrdMap.empty.insert 1 ⟨[], 0⟩, .empty, some ⟨1, [], 0⟩⟩, .empty, [], 1, 0, 2, 0,
    defaultFlushThreshold, 0⟩

end LsmKvEngine

/-- The same calls on a table alone, as the in-memory engine takes them. -/
def mutateTable (s : MemKvEngine Bytes) : Mutation → MemKvEngine Bytes
  | .writeIntent txnId key value now =>
    ((s.writeIntentImpl txnId key (some value) now).toOption).getD s
  | .deleteIntent txnId key now => ((s.writeIntentImpl txnId key none now).toOption).getD s
  | .writeIntentBatch txnId ops now => ((s.writeIntentBatch txnId ops now).toOption).getD s
  | .replaceIntent txnId key replacement now => (s.replaceIntent txnId key replacement now).1
  | .commit txnId commitTs => s.commitBatch [(txnId, commitTs)]
  | .commitBatch commits => s.commitBatch commits
  | .abort txnId => s.abort txnId

/-! ## What a mutation logs -/

def logged (s : Table Bytes) : Mutation → List WalRecord
  | .writeIntent txnId key value now => [.writeIntent txnId key value (some now)]
  | .deleteIntent txnId key now => [.deleteIntent txnId key (some now)]
  | .writeIntentBatch txnId ops now =>
    match s.writeIntentBatch txnId ops now with
    | .ok _ => ops.map (.ofOperation txnId now)
    | .error _ => []
  | .replaceIntent _ _ _ _ => []
  | .commit txnId commitTs => [.commitTxn txnId commitTs]
  | .commitBatch commits => if commits.isEmpty then [] else [.commitTxnBatchV1 commits]
  | .abort txnId => [.abortTxn txnId]

def Mutation.syncs : Mutation → Bool
  | .commit _ _ | .abort _ => true
  | .commitBatch commits => !commits.isEmpty
  | _ => false

theorem isHeader_logged (s : Table Bytes) (m : Mutation) :
    ∀ r ∈ logged s m, r.isHeader = false := by
  intro r hr
  cases m with
  | writeIntentBatch txnId ops now =>
    simp only [logged] at hr
    split at hr
    · obtain ⟨op, -, rfl⟩ := List.mem_map.mp hr
      cases op <;> rfl
    · exact absurd hr List.not_mem_nil
  | commitBatch commits =>
    simp only [logged] at hr
    split at hr
    · exact absurd hr List.not_mem_nil
    rw [List.mem_singleton.mp hr]
    rfl
  | replaceIntent => exact absurd hr List.not_mem_nil
  | _ =>
    rw [List.mem_singleton.mp hr]
    rfl

section MutateTable

variable {s : Table Bytes} {txnId : TxnId} {key : Bytes} {now : Nat}

theorem getD_writeIntentImpl (h : s.WF) (value : Option Bytes) :
    ((s.writeIntentImpl txnId key value now).toOption).getD s =
      if (s.view key).blocks txnId then s else s.replayIntent txnId key value now := by
  split
  next hb =>
    obtain ⟨o, -, herr⟩ : ∃ o, (s.view key).owner = some o ∧
        s.writeIntentImpl txnId key value now = .error (.writeConflict o) :=
      Table.writeIntentImpl_of_blocks h hb
    rw [herr]
    rfl
  next hb =>
    rw [Table.writeIntentImpl_eq_replay h hb]
    rfl

theorem mutateTable_writeIntent (h : s.WF) (value : Bytes) :
    mutateTable s (.writeIntent txnId key value now) =
      if (s.view key).blocks txnId then s else s.replayIntent txnId key (some value) now :=
  getD_writeIntentImpl h _

theorem mutateTable_deleteIntent (h : s.WF) :
    mutateTable s (.deleteIntent txnId key now) =
      if (s.view key).blocks txnId then s else s.replayIntent txnId key none now :=
  getD_writeIntentImpl h _

theorem mutateTable_writeIntentBatch (h : s.WF) (ops : List (IntentOperation Bytes)) :
    mutateTable s (.writeIntentBatch txnId ops now) =
      if ∃ op ∈ ops, (s.view op.key).blocks txnId then s else s.replayAll txnId ops now := by
  rw [mutateTable]
  split
  next hb => rw [Table.writeIntentBatch_of_blocks h hb]; rfl
  next hb =>
  rw [Table.writeIntentBatch_of_not_blocks h fun op hop hblock => hb ⟨op, hop, hblock⟩]
  rfl

theorem logged_writeIntentBatch (h : s.WF) (ops : List (IntentOperation Bytes)) :
    logged s (.writeIntentBatch txnId ops now) =
      if ∃ op ∈ ops, (s.view op.key).blocks txnId then [] else ops.map (.ofOperation txnId now) := by
  by_cases hb : ∃ op ∈ ops, (s.view op.key).blocks txnId
  · rw [logged, if_pos hb, Table.writeIntentBatch_of_blocks h hb]
  rw [logged, if_neg hb,
    Table.writeIntentBatch_of_not_blocks h fun op hop hblock => hb ⟨op, hop, hblock⟩]

theorem replayRecords_ofOperation (r : Table Bytes) (ops : List (IntentOperation Bytes))
    (now' : Nat) :
    replayRecords now' r (ops.map (.ofOperation txnId now)) = r.replayAll txnId ops now := by
  induction ops generalizing r with
  | nil => rfl
  | cons op ops ih =>
    have hop : replayRecord now' r (.ofOperation txnId now op) =
        r.replayIntent txnId op.key op.value now := by cases op <;> rfl
    show replayRecords now' (replayRecord now' r _) (ops.map _) = _
    rw [hop, ih]
    rfl

theorem wf_mutateTable (h : s.WF) (m : Mutation) : (mutateTable s m).WF := by
  cases m with
  | writeIntent txnId key value now =>
    rw [mutateTable_writeIntent h]
    split
    · exact h
    · exact h.replayIntent
  | deleteIntent txnId key now =>
    rw [mutateTable_deleteIntent h]
    split
    · exact h
    · exact h.replayIntent
  | writeIntentBatch txnId ops now =>
    rw [mutateTable_writeIntentBatch h]
    split
    · exact h
    · exact h.replayAll ops
  | replaceIntent txnId key replacement now => exact h.replaceIntent replacement
  | commit txnId commitTs => exact h.commitBatch _
  | commitBatch commits => exact h.commitBatch commits
  | abort txnId => exact h.abort

end MutateTable

namespace LsmKvEngine

/-- A mutation up to the point where it may flush. -/
def logMutation (s : LsmKvEngine) (m : Mutation) : LsmKvEngine :=
  let s' := if (logged s.table m).isEmpty then s else s.append (logged s.table m)
  let s' := if m.syncs then s'.sync else s'
  { s' with table := mutateTable s.table m }

@[simp] theorem append_table (s : LsmKvEngine) (rs : List WalRecord) :
    (s.append rs).table = s.table := rfl

theorem logMutation_activeWal (s : LsmKvEngine) (m : Mutation) :
    (s.logMutation m).activeWal = s.activeWal := by
  unfold logMutation
  simp only
  split <;> split <;> rfl

theorem logMutation_gcWatermark (s : LsmKvEngine) (m : Mutation) :
    (s.logMutation m).gcWatermark = s.gcWatermark := by
  unfold logMutation
  simp only
  split <;> split <;> rfl

theorem logMutation_minReplayWal (s : LsmKvEngine) (m : Mutation) :
    (s.logMutation m).minReplayWal = s.minReplayWal := by
  unfold logMutation
  simp only
  split <;> split <;> rfl

theorem logMutation_nextFileId (s : LsmKvEngine) (m : Mutation) :
    (s.logMutation m).nextFileId = s.nextFileId := by
  unfold logMutation
  simp only
  split <;> split <;> rfl

theorem allocateFileId_inv {s s' : LsmKvEngine} {id : Nat} (h : s.allocateFileId = some (id, s')) :
    id = s.nextFileId ∧ s.nextFileId + 1 ≤ u64Max ∧
      s' = { s with nextFileId := s.nextFileId + 1 } := by
  unfold allocateFileId at h
  split at h
  next hle =>
    cases h
    exact ⟨rfl, hle, rfl⟩
  · cases h

def retains (s : LsmKvEngine) : Bool := decide (s.table.store.size ≠ s.toFlush.size)

variable [ChainCodec]

theorem mutate_cases (s : LsmKvEngine) (m : Mutation) :
    (s.mutate m).1 = s.logMutation m ∨
    ∃ n, (s.mutate m).1 = ((s.logMutation m).addMemtableBytes n).maybeFlushBySize.1 := by
  cases m with
  | writeIntent txnId key value now =>
    simp only [mutate, writeIntent, append_table, logMutation, logged, mutateTable]
    cases h : s.table.writeIntentImpl txnId key (some value) now with
    | error e => exact .inl rfl
    | ok table => exact .inr ⟨_, rfl⟩
  | deleteIntent txnId key now =>
    simp only [mutate, deleteIntent, append_table, logMutation, logged, mutateTable]
    cases h : s.table.writeIntentImpl txnId key none now with
    | error e => exact .inl rfl
    | ok table => exact .inr ⟨_, rfl⟩
  | writeIntentBatch txnId ops now =>
    cases ops with
    | nil => exact .inl rfl
    | cons op ops =>
      cases h : s.table.writeIntentBatch txnId (op :: ops) now with
      | error e =>
        left
        simp only [mutate, writeIntentBatch, logMutation, logged, mutateTable, h]
        rfl
      | ok table =>
        right
        refine ⟨((op :: ops).map fun op =>
          op.key.length + (op.value.map List.length).getD 0 + 32).sum, ?_⟩
        simp only [mutate, writeIntentBatch, logMutation, logged, mutateTable, h]
        rfl
  | replaceIntent txnId key replacement now | commit txnId commitTs | abort txnId => exact .inl rfl
  | commitBatch commits =>
    simp only [mutate, commitBatch]
    cases commits with
    | nil | cons c commits => exact .inl rfl

/-! ## What a flush and a compaction do -/

theorem buildSst_inv {s s' : LsmKvEngine} {data : Layer} {id : Nat}
    (h : s.buildSst data = some (id, s')) :
    id = s.nextFileId ∧ s.nextFileId + 1 ≤ u64Max ∧
      s' = { s with
        nextFileId := s.nextFileId + 1
        disk := { s.disk with ssts := s.disk.ssts.insert id (Sstable.build data) } } := by
  obtain ⟨⟨id', s1⟩, hal, heq⟩ := Option.map_eq_some_iff.mp h
  cases heq
  obtain ⟨rfl, hle, rfl⟩ := allocateFileId_inv hal
  exact ⟨rfl, hle, rfl⟩

/-- The compacted content: all live table files merged and collected. -/
def compacted (watermark : Nat) (tables : List Sstable) : Layer :=
  ((mergeTables tables).mapVals fun _ chain => normalize watermark chain).filter
    fun _ chain => !chain.versions.isEmpty

theorem compactInner_cases (s : LsmKvEngine) :
    s.compactInner.1 = s ∨
    ∃ tables newId s1, readTables s.disk (s.sstables.insertionSort (· ≤ ·)) = .ok tables ∧
      s.buildSst (compacted s.gcWatermark tables) = some (newId, s1) ∧
      s.compactInner.1 =
        { s1 with
          sstables := [newId]
          disk := { s1.disk with
            manifest := some ⟨s1.activeWal, [newId], s1.minReplayWal⟩
            ssts := s1.disk.ssts.filter fun id _ => decide (id ∉ s.sstables) } } := by
  unfold compactInner
  split
  · exact .inl rfl
  split
  · exact .inl rfl
  next tables ht =>
  simp only
  split
  · exact .inl rfl
  next newId s1 hb => exact .inr ⟨tables, newId, s1, ht, hb, rfl⟩

/-- The table file of a flush, if there is anything to write. -/
def BuiltFor (s : LsmKvEngine) (newSst : Option Nat) (s1 : LsmKvEngine) : Prop :=
  (newSst = none ∧ s.toFlush.size = 0 ∧ s1 = s) ∨
  ∃ id, newSst = some id ∧ s.buildSst s.toFlush = some (id, s1)

/-- A flush changes nothing, leaves an orphan table file, or publishes; a
published flush may be followed by a compaction. -/
theorem flushInner_cases (s : LsmKvEngine) :
    s.flushInner.1 = s ∨
    (∃ id s1, s.buildSst s.toFlush = some (id, s1) ∧ s1.allocateFileId = none ∧
      s.flushInner.1 = s1) ∨
    (s.table.store.size ≠ 0 ∧
     ∃ newSst s1 walId s2, s.BuiltFor newSst s1 ∧ s1.allocateFileId = some (walId, s2) ∧
      (s.flushInner.1 = s2.publishFlush walId newSst s.retains ∨
       s.flushInner.1 = (s2.publishFlush walId newSst s.retains).compactInner.1)) := by
  unfold flushInner
  split
  · exact .inl rfl
  next hne =>
  simp only
  split
  · exact .inl rfl
  next newSst s1 hb =>
  have hbuilt : s.BuiltFor newSst s1 := by
    split at hb
    next h0 =>
      cases hb
      exact .inl ⟨rfl, h0, rfl⟩
    · obtain ⟨⟨id, s1'⟩, hbs, heq⟩ := Option.map_eq_some_iff.mp hb
      cases heq
      exact .inr ⟨id, rfl, hbs⟩
  split
  next hal =>
    rcases hbuilt with ⟨rfl, -, rfl⟩ | ⟨id, rfl, hbs⟩
    · exact .inl rfl
    · exact .inr (.inl ⟨id, s1, hbs, hal, rfl⟩)
  next walId s2 hal =>
  refine .inr (.inr ⟨hne, newSst, s1, walId, s2, hbuilt, hal, ?_⟩)
  split
  · exact .inr rfl
  · exact .inl rfl

/-! ## File ids -/

theorem compactInner_ids (s : LsmKvEngine) :
    s.compactInner.1.activeWal = s.activeWal ∧ s.nextFileId ≤ s.compactInner.1.nextFileId := by
  rcases s.compactInner_cases with h | ⟨tables, newId, s1, -, hb, h⟩
  · rw [h]
    exact ⟨rfl, le_rfl⟩
  obtain ⟨-, -, rfl⟩ := buildSst_inv hb
  rw [h]
  exact ⟨rfl, Nat.le_succ _⟩

theorem BuiltFor.ids {s s1 : LsmKvEngine} {newSst : Option Nat} (h : s.BuiltFor newSst s1) :
    s1.activeWal = s.activeWal ∧ s.nextFileId ≤ s1.nextFileId := by
  rcases h with ⟨-, -, rfl⟩ | ⟨id, -, hb⟩
  · exact ⟨rfl, le_rfl⟩
  obtain ⟨-, -, rfl⟩ := buildSst_inv hb
  exact ⟨rfl, Nat.le_succ _⟩

theorem publishFlush_ids {s s1 s2 : LsmKvEngine} {newSst : Option Nat} {walId : Nat}
    (hb : s.BuiltFor newSst s1) (hal : s1.allocateFileId = some (walId, s2)) (retained : Bool) :
    s.nextFileId ≤ (s2.publishFlush walId newSst retained).activeWal ∧
    s.nextFileId ≤ (s2.publishFlush walId newSst retained).nextFileId := by
  obtain ⟨rfl, -, rfl⟩ := allocateFileId_inv hal
  exact ⟨hb.ids.2, hb.ids.2.trans (Nat.le_succ _)⟩

theorem flushInner_ids (s : LsmKvEngine) :
    (s.flushInner.1.activeWal = s.activeWal ∨ s.nextFileId ≤ s.flushInner.1.activeWal) ∧
    s.nextFileId ≤ s.flushInner.1.nextFileId := by
  rcases s.flushInner_cases with h | ⟨id, s1, hb, -, h⟩ |
    ⟨-, newSst, s1, walId, s2, hb, hal, h | h⟩
  · rw [h]
    exact ⟨.inl rfl, le_rfl⟩
  · rw [h]
    have := BuiltFor.ids (.inr ⟨id, rfl, hb⟩)
    exact ⟨.inl this.1, this.2⟩
  · rw [h]
    have := publishFlush_ids hb hal s.retains
    exact ⟨.inr this.1, this.2⟩
  · rw [h]
    have := publishFlush_ids hb hal s.retains
    have hc := compactInner_ids (s2.publishFlush walId newSst s.retains)
    rw [hc.1]
    exact ⟨.inr this.1, this.2.trans hc.2⟩

end LsmKvEngine

end NodusDb.Lsm
