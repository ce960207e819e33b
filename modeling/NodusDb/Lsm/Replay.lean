import NodusDb.Lib.Run
import NodusDb.Lsm.Files

/-!
# Replay against the live engine

Opening the directory of an engine that has not flushed replays its one log segment. The replayed
table is the live one as long as every mutation logs exactly what it changes (`Logged`); a rejected
write and `replace_intent` do not.

* `replay_rebuilds_iff`: every state is rebuilt by a reopen exactly when every mutation is logged.
* `replay_diverges`: a run after which a reopen finds something else.
-/

namespace NodusDb

namespace Table

variable {V : Type} {a b : Table V} {txnId : TxnId} {key : Bytes} {value : Option V} {now now' : Nat}

/-- The same content and the same indexed keys. -/
structure Same (a b : Table V) : Prop where
  view : ∀ k, a.view k = b.view k
  keys : ∀ t k, k ∈ a.keysOf t ↔ k ∈ b.keysOf t

/-- The index lists nothing but pending writes. -/
def Exact (a : Table V) : Prop := ∀ t k, k ∈ a.keysOf t → (a.view k).owner = some t

theorem Same.refl (a : Table V) : a.Same a := ⟨fun _ => rfl, fun _ _ => Iff.rfl⟩

theorem Same.trans (h : a.Same b) (h' : b.Same c) : a.Same c :=
  ⟨fun k => (h.view k).trans (h'.view k), fun t k => (h.keys t k).trans (h'.keys t k)⟩

theorem Same.replayIntent (h : a.Same b) (ha : a.WF) (hb : b.WF) :
    (a.replayIntent txnId key value now).Same (b.replayIntent txnId key value now') := by
  refine ⟨fun k => ?_, fun t k => ?_⟩
  · rw [view_replayIntent ha, view_replayIntent hb, h.view k, h.view key]
  rw [keysOf_replayIntent ha, keysOf_replayIntent hb]
  split
  · rw [List.mem_append, List.mem_append, h.keys]
  · exact h.keys t k

theorem Same.resolve (hf : Resolves txnId f g) (h : a.Same b) (ha : a.WF) (hb : b.WF) :
    (a.resolve txnId f).Same (b.resolve txnId f) := by
  refine ⟨fun k => ?_, fun t k => ?_⟩
  · rw [view_resolve hf ha, view_resolve hf hb, h.view k]
  rw [keysOf_resolve, keysOf_resolve]
  split
  · rfl
  · exact h.keys t k

theorem Same.commitBatch (commits : List (TxnId × Nat)) (h : a.Same b) (ha : a.WF) (hb : b.WF) :
    (a.commitBatch commits).Same (b.commitBatch commits) := by
  induction commits generalizing a b with
  | nil => exact h
  | cons c commits ih =>
    exact ih (h.resolve (resolves_commit c.1 c.2) ha hb) (ha.commit c.2) (hb.commit c.2)

/-! ## The live index is exact -/

theorem exact_empty : (empty : Table V).Exact := fun _ _ h => absurd h List.not_mem_nil

theorem Exact.replayIntent (h : a.Exact) (ha : a.WF) (hnb : ¬ (a.view key).blocks txnId) :
    (a.replayIntent txnId key value now).Exact := by
  intro t k hk
  rw [keysOf_replayIntent ha] at hk
  rw [view_replayIntent ha, KeyState.write, if_neg hnb]
  by_cases hkk : k = key
  · rw [if_pos hkk]
    split at hk
    next ht => rw [ht]; rfl
    next ht =>
    -- Another transaction's indexed key would block the write.
    have ho := h t k hk
    rw [hkk] at ho
    refine absurd ⟨by simp [ho], ?_⟩ hnb
    rw [ho]
    exact fun he => ht (Option.some.inj he)
  · rw [if_neg hkk]
    split at hk
    next ht =>
      rcases List.mem_append.mp hk with hk | hk
      · rw [ht]; exact h txnId k hk
      · exact absurd (List.mem_singleton.mp hk) hkk
    · exact h t k hk

theorem Exact.resolve (hf : Resolves txnId f g) (h : a.Exact) (ha : a.WF) :
    (a.resolve txnId f).Exact := by
  intro t k hk
  rw [keysOf_resolve] at hk
  split at hk
  · exact absurd hk List.not_mem_nil
  next ht =>
  have ho := h t k hk
  rw [view_resolve hf ha, hf.other _ (by rw [ho]; exact fun he => ht (Option.some.inj he))]
  exact ho

theorem Exact.commitBatch (commits : List (TxnId × Nat)) (h : a.Exact) (ha : a.WF) :
    (a.commitBatch commits).Exact := by
  induction commits generalizing a with
  | nil => exact h
  | cons c commits ih => exact ih (h.resolve (resolves_commit c.1 c.2) ha) (ha.commit c.2)

theorem Exact.replayAll (ops : List (IntentOperation V)) (h : a.Exact) (ha : a.WF)
    (hnb : ∀ op ∈ ops, ¬ (a.view op.key).blocks txnId) : (a.replayAll txnId ops now).Exact := by
  induction ops generalizing a with
  | nil => exact h
  | cons op ops ih =>
    have hop := hnb op List.mem_cons_self
    refine ih (h.replayIntent ha hop) ha.replayIntent fun op' hop' => ?_
    rw [view_replayIntent ha]
    split
    · exact not_blocks_write hop
    · exact hnb op' (List.mem_cons_of_mem _ hop')

theorem mem_keysOf_replaceIntent (ha : a.WF) (r : IntentReplacement V) :
    j ∈ (a.replaceIntent txnId key r now).1.keysOf u ↔
      match r with
      | .clear => j ∈ a.keysOf u ∧ (u = txnId → j ≠ key)
      | _ => j ∈ a.keysOf u ∨ (u = txnId ∧ j = key ∧ ¬ (a.view key).blocks txnId) := by
  have hdrop : (a.chainAt key).dropIntentsOf txnId = ((a.view key).abort txnId).chain := by
    rw [ha.chainAt_eq, KeyState.dropIntentsOf_chain]
  cases r with
  | put v | delete =>
    rw [replaceIntent, hdrop]
    exact mem_keysOf_replaceWith rfl
  | clear => exact mem_keysOf_clear

theorem Exact.replaceIntent (h : a.Exact) (ha : a.WF) (r : IntentReplacement V) :
    (a.replaceIntent txnId key r now).1.Exact := by
  intro t k hk
  rw [mem_keysOf_replaceIntent ha] at hk
  rw [view_replaceIntent ha]
  have hput : ∀ v : Option V,
      (k ∈ a.keysOf t ∨ (t = txnId ∧ k = key ∧ ¬ (a.view key).blocks txnId)) →
      (if k = key then (a.view key).write txnId v else a.view k).owner = some t := by
    intro v hor
    unfold KeyState.write
    by_cases hb : (a.view key).blocks txnId
    · have hold : k ∈ a.keysOf t := hor.resolve_right fun hr => hr.2.2 hb
      rw [if_pos hb]
      split
      next hkk => rw [← hkk]; exact h t k hold
      · exact h t k hold
    rw [if_neg hb]
    rcases hor with hold | ⟨ht, hkk, -⟩
    · have ho := h t k hold
      split
      next hkk =>
        by_cases ht : t = txnId
        · rw [ht]; rfl
        rw [hkk] at ho
        refine absurd ⟨by simp [ho], ?_⟩ hb
        rw [ho]
        exact fun he => ht (Option.some.inj he)
      · exact ho
    · rw [if_pos hkk, ht]; rfl
  cases r with
  | put v => exact hput (some v) hk
  | delete => exact hput none hk
  | clear =>
    have ho := h t k hk.1
    split
    next hkk =>
      have ht : t ≠ txnId := fun ht => hk.2 ht hkk
      rw [hkk] at ho
      show ((a.view key).abort txnId).owner = some t
      rw [KeyState.abort, if_neg (by rw [ho]; exact fun he => ht (Option.some.inj he))]
      exact ho
    · exact ho

theorem Exact.mem_keysOf (h : a.Exact) (ha : a.WF) : k ∈ a.keysOf t ↔ (a.view k).owner = some t :=
  ⟨h t k, ha.indexed k t⟩

theorem Exact.same (ha : a.Exact) (hb : b.Exact) (hwa : a.WF) (hwb : b.WF)
    (h : ∀ k, a.view k = b.view k) : a.Same b := by
  refine ⟨h, fun t k => ?_⟩
  rw [ha.mem_keysOf hwa, hb.mem_keysOf hwb, h k]

theorem Same.replayAll (ops : List (IntentOperation V)) (h : a.Same b) (ha : a.WF) (hb : b.WF) :
    (a.replayAll txnId ops now).Same (b.replayAll txnId ops now') := by
  induction ops generalizing a b with
  | nil => exact h
  | cons op ops ih => exact ih (h.replayIntent ha hb) ha.replayIntent hb.replayIntent

end Table

namespace Lsm

/-! ## One mutation -/

theorem exact_mutateTable (he : s.Exact) (hs : s.WF) (m : Mutation) : (mutateTable s m).Exact := by
  cases m with
  | writeIntent txnId key value now =>
    rw [mutateTable_writeIntent hs]
    split
    · exact he
    next hb => exact he.replayIntent hs hb
  | deleteIntent txnId key now =>
    rw [mutateTable_deleteIntent hs]
    split
    · exact he
    next hb => exact he.replayIntent hs hb
  | writeIntentBatch txnId ops now =>
    rw [mutateTable_writeIntentBatch hs]
    split
    · exact he
    next hb => exact he.replayAll ops hs fun op hop hblock => hb ⟨op, hop, hblock⟩
  | replaceIntent txnId key replacement now => exact he.replaceIntent hs replacement
  | commit txnId commitTs => exact he.commitBatch _ hs
  | commitBatch commits => exact he.commitBatch commits hs
  | abort txnId => exact he.resolve (Table.resolves_abort txnId) hs

/-- The mutation logs what it changes: a single write is not rejected, and a
savepoint leaves the pending write as it is. -/
def Logged (s : Table Bytes) : Mutation → Prop
  | .writeIntent txnId key _ _ | .deleteIntent txnId key _ => ¬ (s.view key).blocks txnId
  | .replaceIntent txnId key replacement _ => (s.view key).replace txnId replacement = s.view key
  | _ => True

instance (s : Table Bytes) (m : Mutation) : Decidable (Logged s m) := by
  cases m <;> unfold Logged <;> infer_instance

variable {s r : Table Bytes}

theorem not_same_of_blocks (he : s.Exact) (hr : r.WF) (hb : (s.view key).blocks txnId) :
    ¬ s.Same (r.replayIntent txnId key value now) := by
  intro h
  have hmem : key ∈ (r.replayIntent txnId key value now).keysOf txnId := by
    rw [Table.keysOf_replayIntent hr, if_pos rfl]
    exact List.mem_append_right _ List.mem_cons_self
  exact hb.2 (he txnId key ((h.keys txnId key).mpr hmem))

theorem same_write_iff (hs : s.WF) (hr : r.WF) (he : s.Exact) (h : s.Same r) :
    (if (s.view key).blocks txnId then s else s.replayIntent txnId key value now).Same
        (r.replayIntent txnId key value now') ↔ ¬ (s.view key).blocks txnId := by
  split
  next hb => exact ⟨fun hsame => absurd hsame (not_same_of_blocks he hr hb), absurd hb⟩
  next hb => exact ⟨fun _ => hb, fun _ => h.replayIntent hs hr⟩

/-- From a table that agrees with the log so far, a mutation and the replay of
what it logs agree again exactly when the mutation is `Logged`. -/
theorem same_mutate_iff (hs : s.WF) (hr : r.WF) (he : s.Exact) (h : s.Same r) (now : Nat)
    (m : Mutation) : (mutateTable s m).Same (replayRecords now r (logged s m)) ↔ Logged s m := by
  cases m with
  | writeIntent txnId key value n =>
    rw [mutateTable_writeIntent hs]
    exact same_write_iff hs hr he h
  | deleteIntent txnId key n =>
    rw [mutateTable_deleteIntent hs]
    exact same_write_iff hs hr he h
  | writeIntentBatch txnId ops n =>
    rw [mutateTable_writeIntentBatch hs, logged_writeIntentBatch hs]
    split
    · exact ⟨fun _ => trivial, fun _ => h⟩
    refine ⟨fun _ => trivial, fun _ => ?_⟩
    rw [replayRecords_ofOperation]
    exact h.replayAll ops hs hr
  | replaceIntent txnId key replacement n =>
    show (s.replaceIntent txnId key replacement n).1.Same r ↔ _
    constructor
    · intro h'
      have hk := h'.view key
      rwa [Table.view_replaceIntent hs, if_pos rfl, ← h.view key] at hk
    · intro hsame
      refine Table.Same.trans ?_ h
      refine (he.replaceIntent hs replacement).same he (hs.replaceIntent replacement) hs fun k => ?_
      rw [Table.view_replaceIntent hs]
      split
      next hk => rw [hk]; exact hsame
      · rfl
  | commit txnId commitTs =>
    exact ⟨fun _ => trivial, fun _ => h.resolve (Table.resolves_commit ..) hs hr⟩
  | commitBatch commits =>
    refine ⟨fun _ => trivial, fun _ => ?_⟩
    cases commits with
    | nil => exact h
    | cons c commits => exact h.commitBatch (c :: commits) hs hr
  | abort txnId => exact ⟨fun _ => trivial, fun _ => h.resolve (Table.resolves_abort _) hs hr⟩

/-! ## Runs without a flush -/

namespace LsmKvEngine

section Runs

variable [ChainCodec]

/-- The engine has not rotated its log, whose one segment has these records. -/
structure Unrotated (s : LsmKvEngine) (records : List WalRecord) : Prop where
  onDisk : ∃ n, s.OnDisk [] [⟨records, n⟩]
  activeWal : s.activeWal = 1
  nextFileId : s.nextFileId = 2
  wf : s.table.WF
  exact : s.table.Exact

theorem unrotated_fresh : fresh.Unrotated [] :=
  ⟨⟨0, onDisk_fresh⟩, rfl, rfl, Table.wf_empty, Table.exact_empty⟩

variable {records : List WalRecord} {s : LsmKvEngine}

section

variable (h : s.Unrotated records)
include h

theorem Unrotated.withWal (now : Nat) :
    ∃ r, withWal s.disk now = .ok r ∧ r.table = replayRecords now .empty records := by
  obtain ⟨n, hd⟩ := h.onDisk
  obtain ⟨r, hopen, -, ht, -⟩ := reopen_onDisk hd.stored hd.below now
  refine ⟨r, hopen, ?_⟩
  rw [ht]
  show replayRecords now .empty ([records].reverse.flatten) = _
  rw [List.reverse_singleton, List.flatten_singleton]

omit [ChainCodec] in
/-- Opening the engine's directory finds its table again. -/
def Rebuilt (s : LsmKvEngine) : Prop :=
  ∀ now, ∃ r, withWal s.disk now = .ok r ∧ s.table.Same r.table

theorem Unrotated.rebuilt_iff :
    s.Rebuilt ↔ ∀ now, s.table.Same (replayRecords now .empty records) := by
  refine forall_congr' fun now => ?_
  obtain ⟨r, hr, ht⟩ := h.withWal now
  rw [← ht]
  constructor
  · rintro ⟨r', hr', hsame⟩
    rw [hr] at hr'
    cases hr'
    exact hsame
  · exact fun hsame => ⟨r, hr, hsame⟩

theorem Unrotated.logMutation (m : Mutation) :
    (s.logMutation m).Unrotated (records ++ logged s.table m) := by
  obtain ⟨n, hd⟩ := h.onDisk
  refine ⟨⟨_, hd.logMutation m⟩, ?_, ?_, wf_mutateTable h.wf m, exact_mutateTable h.exact h.wf m⟩
  · rw [logMutation_activeWal, h.activeWal]
  · rw [logMutation_nextFileId, h.nextFileId]

theorem Unrotated.flushInner (ha : s.flushInner.1.activeWal = 1) : s.flushInner.1 = s := by
  rcases s.flushInner_cases with hs | ⟨id, s1, hb, hal, -⟩ |
    ⟨-, newSst, s1, walId, s2, hb, hal, hs⟩
  · exact hs
  · -- The ids 2 and 3 are there to be allocated.
    obtain ⟨-, -, rfl⟩ := buildSst_inv hb
    have hle : s.nextFileId + 1 + 1 ≤ u64Max := by rw [h.nextFileId]; decide
    rw [allocateFileId, if_pos hle] at hal
    cases hal
  have hids := publishFlush_ids hb hal s.retains
  have hle : s.nextFileId ≤ s.flushInner.1.activeWal := by
    rcases hs with hs | hs
    · rw [hs]; exact hids.1
    · rw [hs, (compactInner_ids _).1]; exact hids.1
  rw [h.nextFileId, ha] at hle
  exact absurd hle (by decide)

end

def Rotated (s : LsmKvEngine) : Prop := 2 ≤ s.activeWal ∧ 2 ≤ s.nextFileId

theorem Rotated.mutate (h : s.Rotated) (m : Mutation) : (s.mutate m).1.Rotated := by
  have hlog : (s.logMutation m).activeWal = s.activeWal ∧
      (s.logMutation m).nextFileId = s.nextFileId :=
    ⟨s.logMutation_activeWal m, s.logMutation_nextFileId m⟩
  rcases s.mutate_cases m with hm | ⟨n, hm⟩
  · rw [hm, Rotated, hlog.1, hlog.2]
    exact h
  rw [hm, maybeFlushBySize]
  split
  · have hids := flushInner_ids ((s.logMutation m).addMemtableBytes n)
    have hnext : 2 ≤ ((s.logMutation m).addMemtableBytes n).nextFileId := hlog.2 ▸ h.2
    refine ⟨?_, hnext.trans hids.2⟩
    rcases hids.1 with he | hle
    · rw [he]; exact hlog.1 ▸ h.1
    · exact hnext.trans hle
  · exact ⟨hlog.1 ▸ h.1, hlog.2 ▸ h.2⟩

theorem Unrotated.mutate (h : s.Unrotated records) (m : Mutation) :
    (s.mutate m).1.Rotated ∨
    ((s.mutate m).1.Unrotated (records ++ logged s.table m) ∧
      (s.mutate m).1.table = mutateTable s.table m) := by
  have hlog := h.logMutation m
  rcases s.mutate_cases m with hm | ⟨n, hm⟩
  · rw [hm]
    exact .inr ⟨hlog, rfl⟩
  have hbytes : ((s.logMutation m).addMemtableBytes n).Unrotated (records ++ logged s.table m) :=
    ⟨hlog.onDisk.imp fun _ hd => hd.addMemtableBytes n, hlog.activeWal, hlog.nextFileId, hlog.wf,
      hlog.exact⟩
  rw [hm, maybeFlushBySize]
  split
  · obtain ⟨hact, hnext⟩ := flushInner_ids ((s.logMutation m).addMemtableBytes n)
    rw [hbytes.nextFileId] at hact hnext
    rcases hact with he | hle
    · rw [hbytes.flushInner (he.trans hbytes.activeWal)]
      exact .inr ⟨hbytes, rfl⟩
    · exact .inl ⟨hle, hnext⟩
  · exact .inr ⟨hbytes, rfl⟩

def mutateAll (s : LsmKvEngine) (ms : List Mutation) : LsmKvEngine :=
  ms.foldl (fun s m => (s.mutate m).1) s

theorem mutateAll_concat (s : LsmKvEngine) (ms : List Mutation) (m : Mutation) :
    s.mutateAll (ms ++ [m]) = ((s.mutateAll ms).mutate m).1 := by
  rw [mutateAll, List.foldl_append]
  rfl

/-- Every mutation of the run logs what it changes. -/
def LoggedRun (s : LsmKvEngine) (ms : List Mutation) : Prop :=
  Meets (fun s m => (s.mutate m).1) (fun s m => Logged s.table m) s ms

instance (s : LsmKvEngine) (ms : List Mutation) : Decidable (s.LoggedRun ms) :=
  inferInstanceAs (Decidable (Meets _ _ _ _))

theorem loggedRun_concat (s : LsmKvEngine) (ms : List Mutation) (m : Mutation) :
    s.LoggedRun (ms ++ [m]) ↔ s.LoggedRun ms ∧ Logged (s.mutateAll ms).table m := by
  unfold LoggedRun
  rw [meets_append]
  simp only [Meets, and_true]
  rfl

theorem rebuilt_of_run (ms : List Mutation) :
    (fresh.mutateAll ms).Rotated ∨
    ∃ records, (fresh.mutateAll ms).Unrotated records ∧
      ((∀ ms', ms' <+: ms → (fresh.mutateAll ms').Rebuilt) ↔ fresh.LoggedRun ms) := by
  induction ms using List.reverseRecOn with
  | nil =>
    refine .inr ⟨[], unrotated_fresh, fun _ => trivial, fun _ ms' hp => ?_⟩
    rw [List.prefix_nil.mp hp]
    exact unrotated_fresh.rebuilt_iff.mpr fun _ => Table.Same.refl _
  | append_singleton ms m ih =>
    rw [mutateAll_concat]
    rcases ih with hr | ⟨records, hu, hiff⟩
    · exact .inl (hr.mutate m)
    rcases hu.mutate m with hr | ⟨hu', ht⟩
    · exact .inl hr
    refine .inr ⟨_, hu', ?_⟩
    rw [loggedRun_concat, ← hiff]
    -- The new state is compared with the log only after all earlier ones agreed with it.
    have hlast : (fresh.mutateAll ms).Rebuilt →
        (((fresh.mutateAll ms).mutate m).1.Rebuilt ↔ Logged (fresh.mutateAll ms).table m) := by
      intro hprev
      have hsame := hu.rebuilt_iff.mp hprev
      have hstep := fun now => same_mutate_iff hu.wf (wf_replayRecords Table.wf_empty records)
        hu.exact (hsame now) now m
      rw [hu'.rebuilt_iff, ht]
      simp only [replayRecords_append]
      exact ⟨fun h => (hstep 0).mp (h 0), fun h now => (hstep now).mpr h⟩
    constructor
    · intro h
      refine ⟨fun ms' hp => h ms' (hp.trans (List.prefix_append ms [m])), ?_⟩
      refine (hlast (h ms (List.prefix_append ms [m]))).mp ?_
      rw [← mutateAll_concat]
      exact h _ List.prefix_rfl
    · rintro ⟨hall, hl⟩ ms' hp
      rcases List.prefix_concat_iff.mp hp with rfl | hp
      · rw [mutateAll_concat]
        exact (hlast (hall ms List.prefix_rfl)).mpr hl
      · exact hall ms' hp

omit [ChainCodec] in
theorem not_rebuilt_of_view (k : Bytes)
    (h : (withWal s.disk 0).toOption.map (·.table.view k) ≠ some (s.table.view k)) :
    ¬ s.Rebuilt := by
  intro hr
  obtain ⟨r, hopen, hsame⟩ := hr 0
  rw [hopen] at h
  exact h (congrArg some (hsame.view k).symm)

omit [ChainCodec] in
theorem not_rebuilt_of_keys (t : TxnId) (k : Bytes) (hk : k ∉ s.table.keysOf t)
    (h : (withWal s.disk 0).toOption.any (fun r => decide (k ∈ r.table.keysOf t)) = true) :
    ¬ s.Rebuilt := by
  intro hr
  obtain ⟨r, hopen, hsame⟩ := hr 0
  rw [hopen] at h
  exact hk ((hsame.keys t k).mpr (of_decide_eq_true h))

/-- Along a run that leaves the engine in its first log segment, reopening
rebuilds the table at every point exactly when every mutation logs what it
changes. -/
theorem replay_rebuilds_iff (ms : List Mutation) (hu : (fresh.mutateAll ms).activeWal = 1) :
    (∀ ms', ms' <+: ms → (fresh.mutateAll ms').Rebuilt) ↔ fresh.LoggedRun ms := by
  rcases rebuilt_of_run ms with hr | ⟨records, -, hiff⟩
  · rw [Rotated, hu] at hr
    exact absurd hr.1 (by decide)
  · exact hiff

end Runs

/-- Writes, a rejected batch and a commit: each logs what it changes. -/
def rejectedBatchRun : List Mutation :=
  [.writeIntent 1 [7] [10] 0, .deleteIntent 1 [8] 0,
   .writeIntentBatch 2 [.put [8] [11], .put [9] [12]] 0, .commit 1 5, .writeIntent 2 [8] [13] 0]

theorem replay_rebuilds_rejectedBatchRun :
    (@mutateAll bincode fresh rejectedBatchRun).activeWal = 1 ∧
    ∀ ms', ms' <+: rejectedBatchRun → (@mutateAll bincode fresh ms').Rebuilt :=
  ⟨by decide, (@replay_rebuilds_iff bincode rejectedBatchRun (by decide)).mpr (by decide)⟩

/-- A write taken back by a savepoint, before its transaction commits. -/
def savepointRun : List Mutation :=
  [.writeIntent 1 [7] [10] 0, .replaceIntent 1 [7] .clear 0, .commit 1 5]

/-- A write that meets another transaction's intent. -/
def rejectedWriteRun : List Mutation :=
  [.writeIntent 1 [7] [10] 0, .writeIntent 2 [7] [11] 0]

/-- After the savepoint the live engine has nothing at `[7]` and the reopened
one the value taken back; after the rejected write only the reopened engine
lists `[7]` for the second transaction. -/
theorem replay_diverges :
    ((@mutateAll bincode fresh savepointRun).activeWal = 1 ∧
      (@mutateAll bincode fresh savepointRun).get [7] 5 = .ok none ∧
      (withWal (@mutateAll bincode fresh savepointRun).disk 0).toOption.map (·.get [7] 5) =
        some (.ok (some [10])) ∧
      ¬ (@mutateAll bincode fresh savepointRun).Rebuilt) ∧
    ((@mutateAll bincode fresh rejectedWriteRun).activeWal = 1 ∧
      ¬ (@mutateAll bincode fresh rejectedWriteRun).Rebuilt) := by
  refine ⟨⟨by decide, by decide, by decide, ?_⟩, by decide, ?_⟩
  · exact not_rebuilt_of_view [7] (by decide)
  · exact not_rebuilt_of_keys 2 [7] (by decide) (by decide)

end LsmKvEngine

end Lsm

end NodusDb
