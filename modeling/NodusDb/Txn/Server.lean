import NodusDb.Storage.Publish
import NodusDb.Txn.SnapshotIsolation

/-!
# One server: the transaction manager and the store

`COMMIT` is two calls: `commit_txn` of the manager issues the commit timestamp, `commit` of the
store makes the intents visible at it. A reader that begins between the two does not see the writes
at first; `Quiet` excludes such begins.

* `Server.snapshot_reads_stable`: what a transaction reads then never changes.
* `Server.read_changes`: a run in which two reads differ.
-/

namespace NodusDb.Txn

/-! ## Timestamps issued -/

namespace Sys

/-- The commit timestamp has been drawn for the transaction. -/
def Issued (s : Sys) (txnId : TxnId) (commitTs : Nat) : Prop :=
  s.committedAt txnId = some commitTs ∨ ∃ t, s.pc t = .stamped txnId commitTs

def Drawn (s : Sys) (readTs : Nat) : Prop :=
  (∃ t, s.pc t = .begun readTs) ∨ ∃ txnId, s.readAt txnId = some readTs

/-- The thread that holds the records is in `commit_txn` of the transaction. -/
def committing (s : Sys) (txnId : TxnId) : Bool :=
  s.writer.any fun t => (s.pc t).commits == some txnId

variable {s s' : Sys} {l : Label} {txnId : TxnId} {c r : Nat}

theorem committing_eq_true (hl : Locks s) :
    s.committing txnId = true ↔ ∃ t, (s.pc t).commits = some txnId := by
  constructor
  · intro h
    obtain ⟨t, -, ht⟩ := (Option.any_eq_true _ _).mp h
    exact ⟨t, by simpa using ht⟩
  · rintro ⟨t, ht⟩
    rw [committing, hl.writing t txnId ht]
    simpa using ht

/-- The transaction has not ended, and no thread is in its `commit_txn`. -/
def Open (s : Sys) (txnId : TxnId) : Prop :=
  s.committedAt txnId = none ∧ s.aborted txnId = false ∧ ∀ t, (s.pc t).commits ≠ some txnId

theorem open_of_fresh (ht : Table s) (hnew : s.readAt txnId = none) : s.Open txnId := by
  obtain ⟨-, hcommitted, haborted⟩ := ht.fresh txnId hnew
  refine ⟨hcommitted, haborted, fun t hcom => ?_⟩
  obtain ⟨record, hget, -⟩ := ht.committing t txnId hcom
  have hread := (ht.known txnId record hget).1
  rw [hnew] at hread
  cases hread

/-- What a step leaves as it is, and what it may draw from the clock. -/
structure Kept (s : Sys) (l : Label) (s' : Sys) : Prop where
  readAt : ∀ id r, s.readAt id = some r → s'.readAt id = some r
  tracked : ∀ id k, k ∈ s.tracked id → k ∈ s'.tracked id
  committedAt : ∀ id c, s.committedAt id = some c → s'.committedAt id = some c
  /-- Only the committing thread leaves `commit_txn`. -/
  pc : ∀ t id, (s.pc t).commits = some id → (∀ wall saved, l ≠ .commitTick t wall saved) →
    l ≠ .commitFinish t → s'.pc t = s.pc t
  /-- Only `commit_txn` or `abort_txn` of the transaction itself ends its being open. -/
  opened : ∀ id, s.Open id → (∀ t, l ≠ .commitCheck t id) → l ≠ .abortTxn id → s'.Open id
  /-- Only `commitTick` issues a commit timestamp, for the transaction it has checked. -/
  issued : ∀ id c, s'.Issued id c → s.Issued id c ∨ ∃ t wall saved,
    l = .commitTick t wall saved ∧ s.pc t = .checked id ∧ c = (s.clock.hlc.tick wall.toNat).1
  /-- Only `beginDraw` draws a read timestamp, and the clock is then there. -/
  drawn : ∀ r, s'.Drawn r → s.Drawn r ∨ ∃ t wall, l = .beginDraw t wall ∧
    r = (s.clock.hlc.tick wall.toNat).1 ∧ s'.clock.hlc.last = r
  /-- Below the top of its range the clock only moves forward. -/
  clock : (l.draws = true → s.clock.hlc.last < u64Max) → s.clock.hlc.last ≤ s'.clock.hlc.last

theorem Kept.refl (s : Sys) (l : Label) : Kept s l s :=
  ⟨fun _ _ h => h, fun _ _ h => h, fun _ _ h => h, fun _ _ _ _ _ => rfl, fun _ h _ _ => h,
    fun _ _ => .inl, fun _ => .inl, fun _ => le_rfl⟩

theorem kept_of_step (ht : Table s) (h : s.step l = some s') : Kept s l s' := by
  cases l with
  | beginDraw t wall =>
    obtain ⟨hpc, rfl⟩ := beginDraw_inv h
    constructor <;> grind [Open, Issued, Drawn, Pc.commits, Label.draws, lt_tick, tick_snd]
  | beginInsert t id =>
    obtain ⟨r, hpc, -, hnew, rfl⟩ := beginInsert_inv h
    constructor <;> grind [Open, Issued, Drawn, Pc.commits, Function.update_apply]
  | trackWrite id key =>
    obtain ⟨-, ⟨-, rfl⟩ | ⟨record, -, rfl⟩⟩ := trackWrite_inv h
    · exact .refl _ _
    · constructor <;> grind [Open, Issued, Drawn, Function.update_apply]
  | commitCheck t id =>
    obtain ⟨hpc, -, rfl | ⟨record, -, -, rfl | ⟨-, rfl⟩⟩⟩ := commitCheck_inv h
    · exact .refl _ _
    · constructor <;> grind [Open, Issued, Drawn, dropAborted]
    · constructor <;> grind [Open, Issued, Drawn, Pc.commits]
  | commitTick t wall saved =>
    obtain ⟨id, hpc, clock, hclock, rfl | rfl⟩ := commitTick_inv h
    all_goals
      constructor <;> grind [Open, Issued, Drawn, Pc.commits, Label.draws, lt_tick, tick_snd]
  | commitFinish t =>
    obtain ⟨id, ts, record, hpc, hrec, rfl⟩ := commitFinish_inv h
    have hnone : s.committedAt id = none := by
      obtain ⟨record, hget, hpend⟩ := ht.committing t id (txn_commits_of_stamped hpc)
      grind [ht.state id record hget]
    constructor <;> grind [Open, Issued, Drawn, Pc.commits, Function.update_apply]
  | abortTxn id =>
    obtain ⟨-, rfl | ⟨record, -, -, rfl⟩⟩ := abortTxn_inv h
    · exact .refl _ _
    · constructor <;> grind [Open, Issued, Drawn, dropAborted]
  | reap =>
    obtain ⟨-, rfl⟩ := reap_inv h
    constructor <;> grind [Open, Issued, Drawn]
  | gcScan t =>
    obtain ⟨hpc, -, ⟨-, rfl⟩ | ⟨-, rfl⟩⟩ := gcScan_inv h
    · exact .refl _ _
    · constructor <;> grind [Open, Issued, Drawn, Pc.commits]
  | gcNow t wall =>
    obtain ⟨hpc, rfl⟩ := gcNow_inv h
    constructor <;> grind [Open, Issued, Drawn, Pc.commits]

theorem Issued.unique (hl : Locks s) (ht : Table s) (h : s.Issued txnId c)
    (h' : s.Issued txnId c') : c = c' := by
  have hopen : ∀ t, (s.pc t).commits = some txnId → s.committedAt txnId = none := by
    intro t htc
    obtain ⟨record, hget, hpend⟩ := ht.committing t txnId htc
    grind [ht.state txnId record hget]
  rcases h with hc | ⟨t, hp⟩ <;> rcases h' with hc' | ⟨t', hp'⟩
  · grind
  · grind [hopen t' (txn_commits_of_stamped hp')]
  · grind [hopen t (txn_commits_of_stamped hp)]
  · have hw := hl.writing t txnId (txn_commits_of_stamped hp)
    have hw' := hl.writing t' txnId (txn_commits_of_stamped hp')
    grind

theorem not_issued_of_checked (hl : Locks s) (ht : Table s) (hpc : s.pc t = .checked txnId) :
    ¬ s.Issued txnId c := by
  have hcom : (s.pc t).commits = some txnId := by rw [hpc]; rfl
  rintro (hc | ⟨t', hp⟩)
  · obtain ⟨record, hget, hpend⟩ := ht.committing t txnId hcom
    grind [ht.state txnId record hget]
  · have hw := hl.writing t txnId hcom
    have hw' := hl.writing t' txnId (txn_commits_of_stamped hp)
    grind

end Sys

end NodusDb.Txn

namespace NodusDb

open Txn

variable {V : Type}

/-! ## Writes of a session -/

theorem KeyState.replace_frame {s : KeyState V} {txnId : TxnId} (r : IntentReplacement V) :
    s.replace txnId r = s ∨ (s.replace txnId r).commits = s.commits ∧
      ¬ s.blocks txnId ∧ ¬ (s.replace txnId r).blocks txnId := by
  by_cases hb : s.blocks txnId
  · left
    cases r with
    | put value | delete => exact if_pos hb
    | clear => exact Table.abort_of_blocks hb
  refine .inr ⟨?_, hb, ?_⟩
  · cases r with
    | put value | delete => exact commits_write
    | clear => exact commits_abort
  · cases r with
    | put value | delete => exact Table.not_blocks_write hb
    | clear => exact fun hblk => hblk.1 (Table.owner_abort_of_not_blocks hb)

/-- A call of the executor that writes intents; `now` is the time it is made at. -/
inductive WriteCall (V : Type)
  | intent (key : Bytes) (value : Option V) (now : Nat)
  | batch (ops : List (IntentOperation V)) (now : Nat)
  | replace (key : Bytes) (replacement : IntentReplacement V) (now : Nat)

namespace WriteCall

/-- The store after the call. A call that fails leaves it as it is, but for the
intent a replacement has already dropped. -/
def exec (kv : MemKvEngine V) (txnId : TxnId) : WriteCall V → MemKvEngine V
  | intent key value now =>
    match kv.writeIntentImpl txnId key value now with
    | .ok kv' => kv'
    | .error _ => kv
  | batch ops now =>
    match kv.writeIntentBatch txnId ops now with
    | .ok kv' => kv'
    | .error _ => kv
  | replace key replacement now => (kv.replaceIntent txnId key replacement now).1

/-- Between the two stores only writes of the transaction have come or gone. -/
structure Frame (txnId : TxnId) (kv kv' : MemKvEngine V) : Prop where
  wf : kv'.WF
  view : ∀ j, kv'.view j = kv.view j ∨ (kv'.view j).commits = (kv.view j).commits ∧
    ¬ (kv.view j).blocks txnId ∧ ¬ (kv'.view j).blocks txnId

namespace Frame

variable {txnId u : TxnId} {kv kv' kv'' : MemKvEngine V} {value : Option V} {key j : Bytes}

theorem refl (h : kv.WF) : Frame txnId kv kv := ⟨h, fun _ => .inl rfl⟩

theorem trans (h : Frame txnId kv kv') (h' : Frame txnId kv' kv'') : Frame txnId kv kv'' := by
  refine ⟨h'.wf, fun j => ?_⟩
  rcases h.view j with he | ⟨hc, hb, -⟩ <;> rcases h'.view j with he' | ⟨hc', hb', hd'⟩
  · exact .inl (he'.trans he)
  · rw [← he]
    exact .inr ⟨hc', hb', hd'⟩
  · rw [he']
    exact h.view j
  · exact .inr ⟨hc'.trans hc, hb, hd'⟩

theorem commits (h : Frame txnId kv kv') (j : Bytes) :
    (kv'.view j).commits = (kv.view j).commits := by
  rcases h.view j with he | ⟨hc, -⟩
  · rw [he]
  · exact hc

theorem pending_iff (h : Frame txnId kv kv') (hne : u ≠ txnId) :
    (kv'.view j).pending = some (u, value) ↔ (kv.view j).pending = some (u, value) := by
  rcases h.view j with he | ⟨-, hb, hb'⟩
  · rw [he]
  exact ⟨fun hp => absurd (KeyState.blocks_of_pending hp hne) hb',
    fun hp => absurd (KeyState.blocks_of_pending hp hne) hb⟩

theorem owner_iff (h : Frame txnId kv kv') (hne : u ≠ txnId) :
    (kv'.view j).owner = some u ↔ (kv.view j).owner = some u := by
  simp only [KeyState.owner_eq_some, h.pending_iff hne]

theorem of_replay (h : kv.WF) (hb : ¬ (kv.view key).blocks txnId) (now : Nat) :
    Frame txnId kv (kv.replayIntent txnId key value now) := by
  refine ⟨h.replayIntent, fun j => ?_⟩
  rw [Table.view_replayIntent h]
  split
  next hj =>
    rw [hj]
    exact .inr ⟨KeyState.commits_write, hb, Table.not_blocks_write hb⟩
  · exact .inl rfl

theorem of_replayAll (h : kv.WF) (hb : ∀ op ∈ ops, ¬ (kv.view op.key).blocks txnId) (now : Nat) :
    Frame txnId kv (kv.replayAll txnId ops now) := by
  induction ops generalizing kv with
  | nil => exact refl h
  | cons op ops ih =>
    have hone : Frame txnId kv (kv.replayIntent txnId op.key op.value now) :=
      of_replay h (hb op List.mem_cons_self) now
    refine hone.trans (ih hone.wf fun op' hop' => ?_)
    rcases hone.view op'.key with he | ⟨-, -, hd⟩
    · rw [he]
      exact hb op' (List.mem_cons_of_mem op hop')
    · exact hd

end Frame

theorem exec_frame {kv : MemKvEngine V} (h : kv.WF) (txnId : TxnId) (call : WriteCall V) :
    Frame txnId kv (call.exec kv txnId) := by
  cases call with
  | intent key value now =>
    by_cases hb : (kv.view key).blocks txnId
    · obtain ⟨o, -, he⟩ : ∃ o, _ ∧ kv.writeIntentImpl txnId key value now = .error _ :=
        Table.writeIntentImpl_of_blocks h hb
      simp only [exec, he]
      exact .refl h
    · simp only [exec, Table.writeIntentImpl_eq_replay h hb]
      exact .of_replay h hb now
  | batch ops now =>
    by_cases hb : ∃ op ∈ ops, (kv.view op.key).blocks txnId
    · simp only [exec, Table.writeIntentBatch_of_blocks h hb]
      exact .refl h
    have hfree : ∀ op ∈ ops, ¬ (kv.view op.key).blocks txnId :=
      fun op hop hblk => hb ⟨op, hop, hblk⟩
    simp only [exec, Table.writeIntentBatch_of_not_blocks h hfree]
    exact .of_replayAll h hfree now
  | replace key replacement now =>
    refine ⟨h.replaceIntent replacement, fun j => ?_⟩
    rw [exec, Table.view_replaceIntent h]
    split
    next hj =>
      rw [hj]
      exact KeyState.replace_frame replacement
    · exact .inl rfl

end WriteCall

/-! ## The server -/

/-- The manager and the store of one server. -/
structure Server (V : Type) where
  txns : Sys
  kv : MemKvEngine V
  /-- The writes a transaction had pending when its commit timestamp was drawn. -/
  decided : TxnId → Bytes → Option (Option V)

namespace Server

/-- A step of a session: of one of its calls to the manager, or one of its calls
to the store. -/
inductive Label (V : Type)
  | txn (l : Txn.Label)
  | write (txnId : TxnId) (call : WriteCall V)
  | publish (txnId : TxnId)
  | release (txnId : TxnId)

def init (clock : ClockState) (kv : MemKvEngine V) : Server V := ⟨Sys.init clock, kv, fun _ _ => none⟩

/-- `commit_txn` has not been called for the transaction, or has failed. -/
def uncommitted (s : Server V) (txnId : TxnId) : Bool :=
  (s.txns.committedAt txnId).isNone && !s.txns.committing txnId

/-- The write of a transaction that is pending on a key. -/
def pendingOf (kv : MemKvEngine V) (txnId : TxnId) (key : Bytes) : Option (Option V) :=
  (kv.view key).pending.bind fun p => if p.1 = txnId then some p.2 else none

/-- What is decided after a step of the manager. -/
def decidedAfter (s : Server V) : Txn.Label → TxnId → Bytes → Option (Option V)
  | .commitTick t _ _ =>
    match s.txns.pc t with
    | .checked txnId => Function.update s.decided txnId (pendingOf s.kv txnId)
    | _ => s.decided
  | _ => s.decided

/-- One step; `none` when the label is not enabled. A session writes while its
transaction is open, calls `commit` of the store with the timestamp `commit_txn`
has returned, and `abort` when there is none. -/
def step (s : Server V) : Label V → Option (Server V)
  | .txn l => (s.txns.step l).map fun txns => { s with txns := txns, decided := s.decidedAfter l }
  | .write txnId call =>
    if s.uncommitted txnId then some { s with kv := call.exec s.kv txnId } else none
  | .publish txnId =>
    (s.txns.committedAt txnId).map fun commitTs => { s with kv := s.kv.commit txnId commitTs }
  | .release txnId =>
    if s.uncommitted txnId then some { s with kv := s.kv.abort txnId } else none

def Step (s : Server V) (l : Label V) (s' : Server V) : Prop := s.step l = some s'

/-- No commit timestamp is issued for a transaction whose writes are pending. -/
def AllPublished (s : Server V) : Prop :=
  ∀ txnId c key, s.txns.Issued txnId c → (s.kv.view key).owner ≠ some txnId

/-- The condition on one step: a transaction begins when every issued commit is
visible in the store, and the clock is below the end of its range. -/
structure Quiet (s : Server V) (l : Label V) : Prop where
  begins : ∀ t wall, l = .txn (.beginDraw t wall) → s.AllPublished
  ticks : ∀ l', l = .txn l' → l'.draws = true → s.txns.clock.hlc.last < u64Max

/-! ## What is not visible is newer than every read -/

/-- The order of the timestamps of a server. -/
structure Timely (s : Server V) : Prop where
  locks : Locks s.txns
  table : Txn.Table s.txns
  wf : s.kv.WF
  drawn_le : ∀ r, s.txns.Drawn r → r ≤ s.txns.clock.hlc.last
  /-- A commit that is not visible is newer than every read timestamp. -/
  newer : ∀ txnId c key r, s.txns.Issued txnId c → (s.kv.view key).owner = some txnId →
    s.txns.Drawn r → r < c
  /-- What a commit decided is pending, or visible at its timestamp. -/
  decided : ∀ txnId c key value, s.txns.Issued txnId c → s.decided txnId key = some value →
    (s.kv.view key).pending = some (txnId, value) ∨
    ∃ m ∈ (s.kv.view key).commits, m.version = c ∧ m.value = value

variable {s s' : Server V} {l : Label V} {txnId : TxnId} {key : Bytes} {value : Option V}
  {c r : Nat}

theorem step_cases (h : s.step l = some s') :
    match l with
    | .txn l => ∃ txns, s.txns.step l = some txns ∧
        s' = { s with txns := txns, decided := s.decidedAfter l }
    | .write txnId call =>
        s.uncommitted txnId = true ∧ s' = { s with kv := call.exec s.kv txnId }
    | .publish txnId => ∃ c, s.txns.committedAt txnId = some c ∧
        s' = { s with kv := s.kv.commit txnId c }
    | .release txnId => s.uncommitted txnId = true ∧ s' = { s with kv := s.kv.abort txnId } := by
  cases l with
  | txn l =>
    obtain ⟨txns, htxns, rfl⟩ := Option.map_eq_some_iff.mp h
    exact ⟨txns, htxns, rfl⟩
  | write txnId call | release txnId =>
    obtain ⟨hopen, he⟩ := Option.ite_none_right_eq_some.mp h
    exact ⟨hopen, (Option.some.inj he).symm⟩
  | publish txnId =>
    obtain ⟨c, hc, rfl⟩ := Option.map_eq_some_iff.mp h
    exact ⟨c, hc, rfl⟩

theorem txns_step (h : s.step l = some s') :
    s'.txns = s.txns ∨ ∃ l', l = .txn l' ∧ s.txns.step l' = some s'.txns := by
  cases l with
  | txn l =>
    obtain ⟨txns, htxns, rfl⟩ := step_cases h
    exact .inr ⟨l, rfl, htxns⟩
  | write txnId call | release txnId =>
    obtain ⟨-, rfl⟩ := step_cases h
    exact .inl rfl
  | publish txnId =>
    obtain ⟨c, -, rfl⟩ := step_cases h
    exact .inl rfl

theorem pendingOf_eq_some {kv : MemKvEngine V} :
    pendingOf kv txnId key = some value ↔ (kv.view key).pending = some (txnId, value) := by
  unfold pendingOf
  cases (kv.view key).pending with
  | none => simp
  | some p =>
    obtain ⟨o, v⟩ := p
    simp only [Option.bind_some]
    split <;> simp_all

theorem not_issued_of_uncommitted (hl : Locks s.txns) (h : s.uncommitted txnId = true) :
    ¬ s.txns.Issued txnId c := by
  simp only [uncommitted, Bool.and_eq_true, Option.isNone_iff_eq_none, Bool.not_eq_true'] at h
  rintro (hc | ⟨t, ht⟩)
  · rw [h.1] at hc
    cases hc
  · have hcom := (Sys.committing_eq_true hl).mpr ⟨t, txn_commits_of_stamped ht⟩
    rw [h.2] at hcom
    cases hcom

theorem decidedAfter_of_issued {l : Txn.Label} (hl : Locks s.txns) (ht : Txn.Table s.txns)
    (h : s.txns.Issued txnId c) : s.decidedAfter l txnId = s.decided txnId := by
  unfold decidedAfter
  split
  next t _ _ =>
    cases hpc : s.txns.pc t with
    | checked id =>
      refine Function.update_of_ne ?_ _ _
      rintro rfl
      exact Sys.not_issued_of_checked hl ht hpc h
    | idle | begun | stamped | noneActive => rfl
  · rfl

namespace Timely

theorem init (clock : ClockState) {kv : MemKvEngine V} (h : kv.WF) : Timely (init clock kv) where
  locks := .init clock
  table := .init clock
  wf := h
  drawn_le r hd := by
    obtain ⟨t, ht⟩ | ⟨id, hr⟩ := hd
    · cases ht
    · cases hr
  newer id c _ _ hi := by
    obtain hc | ⟨t, ht⟩ := hi
    · cases hc
    · cases ht
  decided := nofun

section

variable (hi : Timely s)
include hi

/-- The manager draws a commit timestamp above all read timestamps, and a read
timestamp when everything is visible. -/
theorem txn {l : Txn.Label} {txns : Sys} (hq : s.Quiet (.txn l)) (h : s.txns.step l = some txns) :
    Timely { s with txns := txns, decided := s.decidedAfter l } := by
  have hticks := hq.ticks l rfl
  have hk := Sys.kept_of_step hi.table h
  refine ⟨hi.locks.step h, hi.table.step hi.locks h, hi.wf, ?_, ?_, ?_⟩
  · intro r hd
    rcases hk.drawn r hd with hold | ⟨t, wall, -, -, hlast⟩
    · exact (hi.drawn_le r hold).trans (hk.clock hticks)
    · exact hlast.ge
  · intro id c key r hiss hown hd
    rcases hk.issued id c hiss with hold | ⟨t, wall, saved, rfl, hpc, rfl⟩
    · rcases hk.drawn r hd with hd | ⟨t, wall, rfl, -⟩
      · exact hi.newer id c key r hold hown hd
      · exact absurd hown (hq.begins t wall rfl id c key hold)
    · rcases hk.drawn r hd with hd | ⟨_, _, hl, -⟩
      · exact (hi.drawn_le r hd).trans_lt (lt_tick wall.toNat (hticks rfl))
      · cases hl
  · intro id c key value hiss hdec
    rcases hk.issued id c hiss with hold | ⟨t, wall, saved, rfl, hpc, rfl⟩
    · refine hi.decided id c key value hold ?_
      rwa [← decidedAfter_of_issued hi.locks hi.table hold]
    -- The writes are pending when the timestamp is drawn.
    simp only [decidedAfter, hpc, Function.update_self] at hdec
    exact .inl (pendingOf_eq_some.mp hdec)

theorem write {call : WriteCall V} (hopen : s.uncommitted txnId = true) :
    Timely { s with kv := call.exec s.kv txnId } := by
  have hf := WriteCall.exec_frame hi.wf txnId call
  have hne : ∀ {id c}, s.txns.Issued id c → id ≠ txnId := by
    rintro id c hiss rfl
    exact not_issued_of_uncommitted hi.locks hopen hiss
  refine ⟨hi.locks, hi.table, hf.wf, hi.drawn_le, ?_, ?_⟩
  · intro id c key r hiss hown
    exact hi.newer id c key r hiss ((hf.owner_iff (hne hiss)).mp hown)
  intro id c key value hiss hdec
  show ((call.exec s.kv txnId).view key).pending = _ ∨
    ∃ m ∈ ((call.exec s.kv txnId).view key).commits, _
  rw [hf.commits, hf.pending_iff (hne hiss)]
  exact hi.decided id c key value hiss hdec

theorem release (hopen : s.uncommitted txnId = true) :
    Timely { s with kv := s.kv.abort txnId } := by
  refine ⟨hi.locks, hi.table, hi.wf.abort, hi.drawn_le, ?_, ?_⟩
  · intro id c key r hiss hown
    rw [Table.view_abort hi.wf] at hown
    exact hi.newer id c key r hiss ((Table.resolves_abort txnId).owner _ id hown)
  intro id c key value hiss hdec
  have hne : id ≠ txnId := by
    rintro rfl
    exact not_issued_of_uncommitted hi.locks hopen hiss
  have hold := hi.decided id c key value hiss hdec
  rw [Table.view_abort hi.wf, KeyState.commits_abort]
  refine hold.imp_left fun hp => ?_
  rw [KeyState.abort_of_pending_ne hp hne, hp]

theorem publish (hc : s.txns.committedAt txnId = some c) :
    Timely { s with kv := s.kv.commit txnId c } := by
  refine ⟨hi.locks, hi.table, hi.wf.commit c, hi.drawn_le, ?_, ?_⟩
  · intro id c' key r hiss hown
    rw [Table.view_commit hi.wf] at hown
    exact hi.newer id c' key r hiss ((Table.resolves_commit txnId c).owner _ id hown)
  intro id c' key value hiss hdec
  rw [Table.view_commit hi.wf]
  rcases hi.decided id c' key value hiss hdec with hp | ⟨m, hm, hv⟩
  · by_cases hid : id = txnId
    · subst hid
      obtain rfl := Sys.Issued.unique hi.locks hi.table hiss (.inl hc)
      exact .inr ⟨_, KeyState.mem_commits_commit.mpr (.inr ⟨value, hp, rfl⟩), rfl, rfl⟩
    · left
      rw [KeyState.commit_of_pending_ne hp hid, hp]
  · exact .inr ⟨m, KeyState.mem_commits_commit.mpr (.inl hm), hv⟩

theorem step (hq : s.Quiet l) (h : s.step l = some s') : Timely s' := by
  cases l with
  | txn l =>
    obtain ⟨txns, htxns, rfl⟩ := step_cases h
    exact hi.txn hq htxns
  | write txnId call =>
    obtain ⟨hopen, rfl⟩ := step_cases h
    exact hi.write hopen
  | publish txnId =>
    obtain ⟨c, hc, rfl⟩ := step_cases h
    exact hi.publish hc
  | release txnId =>
    obtain ⟨hopen, rfl⟩ := step_cases h
    exact hi.release hopen

theorem get_step (hd : s.txns.Drawn r) (h : s.step l = some s') (key : Bytes) :
    s'.kv.get key r = s.kv.get key r := by
  cases l with
  | txn l =>
    obtain ⟨txns, htxns, rfl⟩ := step_cases h
    rfl
  | write txnId call =>
    obtain ⟨hopen, rfl⟩ := step_cases h
    have hf := WriteCall.exec_frame hi.wf txnId call
    exact MemKvEngine.get_eq_of_commits hf.wf hi.wf (hf.commits key)
  | publish txnId =>
    obtain ⟨c, hc, rfl⟩ := step_cases h
    rw [MemKvEngine.get_eq hi.wf, MemKvEngine.get_eq (hi.wf.commit c), Table.view_commit hi.wf]
    by_cases hown : (s.kv.view key).owner = some txnId
    · have hlt := hi.newer txnId c key r (.inl hc) hown hd
      obtain ⟨value, hp⟩ := KeyState.owner_eq_some.mp hown
      rw [KeyState.commit_of_pending hp]
      exact KeyState.read_addCommit_of_lt hlt
    · rw [KeyState.commit_of_owner_ne hown]
  | release txnId =>
    obtain ⟨hopen, rfl⟩ := step_cases h
    refine MemKvEngine.get_eq_of_commits hi.wf.abort hi.wf ?_
    rw [Table.view_abort hi.wf, KeyState.commits_abort]

end

theorem of_run {clock : ClockState} {kv : MemKvEngine V} {ls : List (Label V)} (hkv : kv.WF)
    (h : Run (Guarded Step Quiet) (Server.init clock kv) ls s) : Timely s :=
  h.invariant (I := Timely) (.init clock hkv) fun _ _ _ hi hs => hi.step hs.1 hs.2

end Timely

/-- The steps that change what a transaction has pending. -/
def Label.Touches (txnId : TxnId) : Label V → Prop
  | .txn _ => False
  | .write id _ | .publish id | .release id => id = txnId

theorem kept_step (hi : Timely s) (h : s.step l = some s') :
    ∃ l', (∀ m, l' = m → m ≠ .reap → l = .txn m) ∧ Sys.Kept s.txns l' s'.txns := by
  obtain he | ⟨l', rfl, hs⟩ := txns_step h
  · exact ⟨.reap, fun m hm hne => absurd hm.symm hne, he ▸ .refl _ _⟩
  · exact ⟨l', fun m hm _ => congrArg _ hm, Sys.kept_of_step hi.table hs⟩

theorem readAt_step (hi : Timely s) (h : s.step l = some s')
    (hr : s.txns.readAt txnId = some r) : s'.txns.readAt txnId = some r := by
  obtain ⟨l', -, hk⟩ := kept_step hi h
  exact hk.readAt txnId r hr

theorem pending_step (hi : Timely s) (h : s.step l = some s') (hl : ¬ l.Touches txnId)
    (hp : (s.kv.view key).pending = some (txnId, value)) :
    (s'.kv.view key).pending = some (txnId, value) := by
  cases l with
  | txn l =>
    obtain ⟨txns, -, rfl⟩ := step_cases h
    exact hp
  | write id call =>
    obtain ⟨-, rfl⟩ := step_cases h
    exact ((WriteCall.exec_frame hi.wf id call).pending_iff (Ne.symm hl)).mpr hp
  | publish id =>
    obtain ⟨c, -, rfl⟩ := step_cases h
    rw [Table.view_commit hi.wf, KeyState.commit_of_pending_ne hp (Ne.symm hl), hp]
  | release id =>
    obtain ⟨-, rfl⟩ := step_cases h
    rw [Table.view_abort hi.wf, KeyState.abort_of_pending_ne hp (Ne.symm hl), hp]

theorem commits_step (hi : Timely s) (h : s.step l = some s')
    (hl : ∀ id, l = .publish id → (s.kv.view key).owner ≠ some id) :
    (s'.kv.view key).commits = (s.kv.view key).commits := by
  cases l with
  | txn l =>
    obtain ⟨txns, -, rfl⟩ := step_cases h
    rfl
  | write id call =>
    obtain ⟨-, rfl⟩ := step_cases h
    exact (WriteCall.exec_frame hi.wf id call).commits key
  | publish id =>
    obtain ⟨c, -, rfl⟩ := step_cases h
    rw [Table.view_commit hi.wf, KeyState.commit_of_owner_ne (hl id rfl)]
  | release id =>
    obtain ⟨-, rfl⟩ := step_cases h
    rw [Table.view_abort hi.wf, KeyState.commits_abort]

theorem get_run {after : List (Label V)} (hi : Timely s) (hr : s.txns.readAt txnId = some r)
    (h : Run (Guarded Step Quiet) s after s') (key : Bytes) :
    s'.kv.get key r = s.kv.get key r ∧ Timely s' ∧ s'.txns.readAt txnId = some r := by
  refine h.invariant (I := fun t => t.kv.get key r = s.kv.get key r ∧ Timely t ∧
    t.txns.readAt txnId = some r) ⟨rfl, hi, hr⟩ ?_
  rintro t a u ⟨hget, ht, hrt⟩ ⟨hq, hstep⟩
  exact ⟨(ht.get_step (.inr ⟨txnId, hrt⟩) hstep key).trans hget, ht.step hq hstep,
    readAt_step ht hstep hrt⟩

theorem get_includes {kv : MemKvEngine V} (h : kv.WF) {m : MvccValue V}
    (hm : m ∈ (kv.view key).commits) (hle : m.version ≤ r) :
    ∃ n ∈ (kv.view key).commits, m.version ≤ n.version ∧ n.version ≤ r ∧
      kv.get key r = n.value := by
  have hmem : m ∈ (kv.view key).commits.filter (·.version ≤ r) := by
    simpa using ⟨hm, hle⟩
  have hne : maxByKey (·.version) ((kv.view key).commits.filter (·.version ≤ r)) ≠ none :=
    fun hn => List.not_mem_nil (maxByKey_eq_none.mp hn ▸ hmem)
  obtain ⟨n, hn⟩ := Option.ne_none_iff_exists'.mp hne
  obtain ⟨hnmem, hmax⟩ := maxByKey_mem hn
  obtain ⟨hnc, hnr⟩ := List.mem_filter.mp hnmem
  refine ⟨n, hnc, hmax m hmem, by simpa using hnr, ?_⟩
  rw [MemKvEngine.get_eq h, KeyState.read, hn]
  rfl

/-- In every run of quiet steps, two reads of a key by one transaction return the
same value, and it includes every transaction that committed at or below its
read timestamp. -/
theorem snapshot_reads_stable (clock : ClockState) (kv : MemKvEngine V) (hkv : kv.WF)
    (before after : List (Label V)) (s s' : Server V)
    (hs : Run (Guarded Step Quiet) (init clock kv) before s)
    (hs' : Run (Guarded Step Quiet) s after s') (reader : TxnId) (r : Nat)
    (hr : s.txns.readAt reader = some r) (key : Bytes) :
    s'.kv.get key r = s.kv.get key r ∧
    ∀ b c value, s.txns.committedAt b = some c → c ≤ r → s.decided b key = some value →
      (∃ m ∈ (s.kv.view key).commits, m.version = c ∧ m.value = value) ∧
      ∃ n ∈ (s.kv.view key).commits, c ≤ n.version ∧ n.version ≤ r ∧
        s.kv.get key r = n.value := by
  have hi := Timely.of_run hkv hs
  refine ⟨(get_run hi hr hs' key).1, ?_⟩
  intro b c value hc hle hdec
  rcases hi.decided b c key value (.inl hc) hdec with hp | ⟨m, hm, rfl, hv⟩
  · -- A pending write of a committed transaction is newer than the read.
    have hlt := hi.newer b c key r (.inl hc) (KeyState.owner_of_pending hp)
      (.inr ⟨reader, hr⟩)
    omega
  · exact ⟨⟨m, hm, rfl, hv⟩, get_includes hi.wf hm hle⟩

/-! ## Concrete runs -/

/-- A check that implies `Quiet`: a transaction begins when the store has no intent. -/
def Idle (s : Server V) : Label V → Prop
  | .txn (.beginDraw _ _) => s.kv.intents.keys = [] ∧ s.txns.clock.hlc.last < u64Max
  | .txn (.commitTick _ _ _) => s.txns.clock.hlc.last < u64Max
  | _ => True

instance (s : Server V) (l : Label V) : Decidable (s.Idle l) := by
  unfold Idle
  split <;> infer_instance

theorem Timely.allPublished (hi : Timely s) (h : s.kv.intents.keys = []) : s.AllPublished := by
  intro txnId c key _ hown
  have hkey := hi.wf.indexed key txnId hown
  have hnone : s.kv.intents.get? txnId = none := by
    by_contra hne
    have hmem := OrdMap.mem_keys.mpr hne
    rw [h] at hmem
    exact List.not_mem_nil hmem
  rw [Table.keysOf, hnone] at hkey
  exact List.not_mem_nil hkey

theorem Timely.quiet_of_idle (hi : Timely s) (h : s.Idle l) : s.Quiet l := by
  constructor
  · rintro t wall rfl
    exact hi.allPublished h.1
  · rintro l' rfl hd
    cases l' with
    | beginDraw t wall => exact h.2
    | commitTick t wall saved => exact h
    | _ => cases hd

theorem Timely.run_of_idle {ls : List (Label V)} (hi : Timely s)
    (h : Run (Guarded Step Idle) s ls s') : Run (Guarded Step Quiet) s ls s' ∧ Timely s' := by
  induction h with
  | nil => exact ⟨.nil _, hi⟩
  | snoc _ hstep ih =>
    have hq := ih.2.quiet_of_idle hstep.1
    exact ⟨ih.1.snoc ⟨hq, hstep.2⟩, ih.2.step hq hstep.2⟩

/-- Transaction `1` writes a key and commits at `2`. -/
def firstCommit : List (Label Nat) :=
  [.txn (.beginDraw 0 0), .txn (.beginInsert 0 1), .write 1 (.intent [7] (some 5) 0),
   .txn (.trackWrite 1 [7]), .txn (.commitCheck 0 1), .txn (.commitTick 0 0 true),
   .txn (.commitFinish 0)]

/-- Transaction `2` begins at `3`. -/
def readerBegins : List (Label Nat) := [.txn (.beginDraw 1 0), .txn (.beginInsert 1 2)]

/-- Transaction `3` writes the key again, commits, and its write is made visible. -/
def secondCommit : List (Label Nat) :=
  [.txn (.beginDraw 0 0), .txn (.beginInsert 0 3), .write 3 (.intent [7] (some 6) 0),
   .txn (.trackWrite 3 [7]), .txn (.commitCheck 0 3), .txn (.commitTick 0 0 true),
   .txn (.commitFinish 0), .publish 3]

/-- A reader that begins after the first commit is visible keeps reading it while
another transaction overwrites the key. -/
theorem reads_stable_under_overwrite : ∃ s s' : Server Nat,
    Run (Guarded Step Quiet) (init ⟨⟨0⟩, 0⟩ .empty) (firstCommit ++ .publish 1 :: readerBegins) s ∧
    Run (Guarded Step Quiet) s secondCommit s' ∧ s.txns.readAt 2 = some 3 ∧
    s.kv.get [7] 3 = some 5 ∧ s'.kv.get [7] u64Max = some 6 ∧
    s'.kv.get [7] 3 = s.kv.get [7] 3 := by
  obtain ⟨s, hs, hr, hget, s', hs', hnew⟩ : ∃ s : Server Nat, execOk step Idle (init ⟨⟨0⟩, 0⟩ .empty)
      (firstCommit ++ .publish 1 :: readerBegins) = some s ∧ s.txns.readAt 2 = some 3 ∧
        s.kv.get [7] 3 = some 5 ∧ ∃ s', execOk step Idle s secondCommit = some s' ∧
          s'.kv.get [7] u64Max = some 6 := by
    decide +kernel
  obtain ⟨hbefore, hi⟩ := (Timely.init _ Table.wf_empty).run_of_idle (run_of_execOk hs)
  obtain ⟨hafter, -⟩ := hi.run_of_idle (run_of_execOk hs')
  refine ⟨s, s', hbefore, hafter, hr, hget, hnew, ?_⟩
  exact (snapshot_reads_stable _ _ Table.wf_empty _ _ s s' hbefore hafter 2 3 hr [7]).1

/-- Transaction `1` has committed at `2` when transaction `2` begins at `3`, and its
write is made visible only then: the reads of transaction `2` before and after
differ, and the first does not include transaction `1`. -/
theorem read_changes : ∃ s s' : Server Nat,
    Run Step (init ⟨⟨0⟩, 0⟩ .empty) (firstCommit ++ readerBegins) s ∧ Step s (.publish 1) s' ∧
    s.txns.readAt 2 = some 3 ∧ s.txns.committedAt 1 = some 2 ∧ s.decided 1 [7] = some (some 5) ∧
    s.kv.get [7] 3 = none ∧ s'.kv.get [7] 3 = some 5 := by
  obtain ⟨s, hs, hr, hc, hd, hget, s', hs', hnew⟩ : ∃ s : Server Nat,
      exec step (init ⟨⟨0⟩, 0⟩ .empty) (firstCommit ++ readerBegins) = some s ∧
        s.txns.readAt 2 = some 3 ∧ s.txns.committedAt 1 = some 2 ∧
        s.decided 1 [7] = some (some 5) ∧ s.kv.get [7] 3 = none ∧
        ∃ s', s.step (.publish 1) = some s' ∧ s'.kv.get [7] 3 = some 5 := by
    decide +kernel
  exact ⟨s, s', run_of_exec hs, hs', hr, hc, hd, hget, hnew⟩

end Server

end NodusDb
