import NodusDb.Executor.Sequence
import NodusDb.Raft.Records
import NodusDb.Txn.Server

/-!
# Concurrent calls of nextval

`nextval` advances the sequence's row in a transaction of its own, again from a fresh snapshot when
it loses a race. A session that begins between another's `commit_txn` and the publication of its row
hands out the same value again; `Calm` excludes such begins.

* `Nextval.values_unique`: then no value is handed out twice.
* `Nextval.same_value_twice`: a run in which one is.
-/

namespace NodusDb.Nextval

open MemKvEngine Function Server List Txn Option

/-! ## Sessions -/

inductive Pc
  | idle
  /-- In `begin_txn`: the read timestamp is drawn. -/
  | beginning
  | started (txnId : TxnId) (readTs : Nat)
  /-- The row is read and the new state computed. -/
  | changed (txnId : TxnId) (key : Bytes) (updated : SequenceState)
  | tracked (txnId : TxnId) (key : Bytes) (updated : SequenceState)
  | written (txnId : TxnId) (updated : SequenceState)
  /-- In `commit_txn`: the conflict check has passed. -/
  | checked (txnId : TxnId) (updated : SequenceState)
  /-- In `commit_txn`: the commit timestamp is drawn. -/
  | stamped (txnId : TxnId) (updated : SequenceState) (commitTs : Nat)
  /-- `commit_txn` has returned; the row is not published. -/
  | committed (txnId : TxnId) (updated : SequenceState) (commitTs : Nat)
  /-- The attempt has failed; `release` is next. -/
  | failed (txnId : TxnId)
  /-- In `release`: `abort_txn` has returned. -/
  | aborted (txnId : TxnId)
  deriving DecidableEq

def Pc.txn : Pc → Option TxnId
  | idle | beginning => none
  | started id _ | changed id _ _ | tracked id _ _ | written id _ | checked id _
  | stamped id _ _ | committed id _ _ | failed id | aborted id => some id

/-- The state whose commit timestamp is drawn and that is not returned yet. -/
def Pc.issued : Pc → Option (TxnId × SequenceState × Nat)
  | stamped id updated c | committed id updated c => some (id, updated, c)
  | _ => none

/-- The state whose row is pending in the store. -/
def Pc.holds : Pc → Option (TxnId × SequenceState)
  | written id updated | checked id updated | stamped id updated _ | committed id updated _ =>
    some (id, updated)
  | _ => none

/-- One server and the sessions that call `nextval` on one sequence. -/
structure State where
  server : Server Row
  pc : Thread → Pc
  /-- The values returned, in this order. -/
  returned : List Int

/-- A step of the attempt of a session, or of the manager's upkeep. -/
inductive Label
  | begin (t : Thread) (wall : UInt64)
  | insert (t : Thread) (txnId : TxnId)
  | scan (t : Thread)
  | track (t : Thread)
  | write (t : Thread) (now : Nat)
  | check (t : Thread)
  | tick (t : Thread) (wall : UInt64) (saved : Bool)
  | finish (t : Thread)
  | publish (t : Thread)
  | abort (t : Thread)
  | release (t : Thread)
  | reap
  | gcScan (t : Thread)
  | gcNow (t : Thread) (wall : UInt64)

def range (table : Uuid) : KeyRange := ⟨table.toText ++ ascii ":", table.toText ++ ascii ";"⟩

/-- The key `initialize` stores the row under. -/
def rowKey (table : Uuid) : Bytes := table.toText ++ ascii ":0"

def readRow (table : Uuid) (name : String) (kv : MemKvEngine Row) (readTs : Nat) :
    Result (Bytes × SequenceState) := do
  let rows ← ((kv.scan (range table).start (range table).stop readTs).mapError fun _ => "scan")
  let pair ← required rows.head? s!"sequence \"{name}\" has no state"
  let state ← SequenceState.fromRow pair.value
  let updated ← state.advance name
  return (pair.key, updated)

namespace State

def init (clock : ClockState) (kv : MemKvEngine Row) : State :=
  ⟨.init clock kv, fun _ => .idle, []⟩

/-- The session goes on at `p`. -/
def goto (q : State) (t : Thread) (p : Pc) (server : Server Row) : State :=
  { q with server := server, pc := Function.update q.pc t p }

/-- The session makes a call and goes on where the answer tells. -/
def call (q : State) (t : Thread) (l : Server.Label Row) (next : Server Row → Pc) :
    Option State :=
  (q.server.step l).map fun server => q.goto t (next server) server

/-- A step of the manager that is no session's. -/
def upkeep (q : State) (l : Txn.Label) : Option State :=
  (q.server.step (.txn l)).map fun server => { q with server := server }

def afterScan (txnId : TxnId) : Result (Bytes × SequenceState) → Pc
  | .ok (key, updated) => .changed txnId key updated
  | .error _ => .failed txnId

def afterWrite (txnId : TxnId) (updated : SequenceState) : Except KvError (MemKvEngine Row) → Pc
  | .ok _ => .written txnId updated
  | .error _ => .failed txnId

/-- Where a session goes on after the conflict check; on an error the thread has
left `commit_txn`. -/
def afterCheck (t : Thread) (txnId : TxnId) (updated : SequenceState) (server : Server Row) : Pc :=
  match server.txns.pc t with
  | .checked _ => .checked txnId updated
  | _ => .failed txnId

def afterTick (t : Thread) (txnId : TxnId) (updated : SequenceState) (server : Server Row) : Pc :=
  match server.txns.pc t with
  | .stamped _ commitTs => .stamped txnId updated commitTs
  | _ => .failed txnId

variable (table : Uuid) (name : String)

/-- One step; `none` when the label is not enabled. -/
def step (q : State) : Label → Option State
  | .begin t wall =>
    match q.pc t with
    | .idle => q.call t (.txn (.beginDraw t wall)) fun _ => .beginning
    | _ => none
  | .insert t txnId =>
    match q.pc t with
    | .beginning => q.call t (.txn (.beginInsert t txnId)) fun server =>
        .started txnId ((server.txns.readAt txnId).getD 0)
    | _ => none
  | .scan t =>
    match q.pc t with
    | .started txnId readTs =>
      some (q.goto t (afterScan txnId (readRow table name q.server.kv readTs)) q.server)
    | _ => none
  | .track t =>
    match q.pc t with
    | .changed txnId key updated =>
      q.call t (.txn (.trackWrite txnId key)) fun _ => .tracked txnId key updated
    | _ => none
  | .write t now =>
    match q.pc t with
    | .tracked txnId key updated =>
      q.call t (.write txnId (.intent key (some updated.toRow) now)) fun _ =>
        afterWrite txnId updated (q.server.kv.writeIntentImpl txnId key (some updated.toRow) now)
    | _ => none
  | .check t =>
    match q.pc t with
    | .written txnId updated =>
      q.call t (.txn (.commitCheck t txnId)) (afterCheck t txnId updated)
    | _ => none
  | .tick t wall saved =>
    match q.pc t with
    | .checked txnId updated =>
      q.call t (.txn (.commitTick t wall saved)) (afterTick t txnId updated)
    | _ => none
  | .finish t =>
    match q.pc t with
    | .stamped txnId updated commitTs =>
      q.call t (.txn (.commitFinish t)) fun _ => .committed txnId updated commitTs
    | _ => none
  | .publish t =>
    match q.pc t with
    | .committed txnId updated _ =>
      (q.call t (.publish txnId) fun _ => .idle).map fun q' =>
        { q' with returned := q.returned ++ [updated.lastValue] }
    | _ => none
  | .abort t =>
    match q.pc t with
    | .failed txnId => q.call t (.txn (.abortTxn txnId)) fun _ => .aborted txnId
    | _ => none
  | .release t =>
    match q.pc t with
    | .aborted txnId => q.call t (.release txnId) fun _ => .idle
    | _ => none
  | .reap => q.upkeep .reap
  | .gcScan t => q.upkeep (.gcScan t)
  | .gcNow t wall => q.upkeep (.gcNow t wall)

def Step (q : State) (l : Label) (q' : State) : Prop := q.step table name l = some q'

variable {table : Uuid} {name : String} {q q' : State} {l : Label}

theorem call_eq_some {t : Thread} {l : Server.Label Row} {next : Server Row → Pc} :
    q.call t l next = some q' ↔
      ∃ server, q.server.step l = some server ∧ q' = q.goto t (next server) server := by
  rw [call, map_eq_some_iff]
  exact exists_congr fun _ => and_congr_right fun _ => eq_comm

theorem upkeep_eq_some {l : Txn.Label} : q.upkeep l = some q' ↔
    ∃ server, q.server.step (.txn l) = some server ∧ q' = { q with server := server } := by
  rw [upkeep, map_eq_some_iff]
  exact exists_congr fun _ => and_congr_right fun _ => eq_comm

end State

open State

/-! ## The store of a sequence -/

/-- A sequence that is stored and not in use: its row is the newest version of
its key and the only row of its table. -/
structure Stored (table : Uuid) (clock : ClockState) (kv : MemKvEngine Row)
    (state : SequenceState) : Prop where
  wf : kv.WF
  row : kv.get (rowKey table) clock.hlc.last = some state.toRow
  old : ∀ m ∈ (kv.view (rowKey table)).commits, m.version ≤ clock.hlc.last
  idle : (kv.view (rowKey table)).pending = none
  alone : ∀ key, (range table).Contains key → key ≠ rowKey table → kv.view key = .empty

/-- What holds of the server whatever the sessions do. -/
structure Base (table : Uuid) (clock : ClockState) (s : Server Row) : Prop where
  timely : s.Timely
  isolated : Isolated s.txns
  clock_le : clock.hlc.last ≤ s.txns.clock.hlc.last
  drawn_ge : ∀ r, s.txns.Drawn r → clock.hlc.last ≤ r
  alone : ∀ key, (range table).Contains key → key ≠ rowKey table → s.kv.view key = .empty
  /-- Every version of the row was there at the start or is a tracked commit. -/
  versions : ∀ m ∈ (s.kv.view (rowKey table)).commits, m.version ≤ clock.hlc.last ∨
    ∃ id, s.txns.committedAt id = some m.version ∧ rowKey table ∈ s.txns.tracked id

structure Expected (table : Uuid) (s : Server Row) (l : Server.Label Row) : Prop where
  quiet : s.Quiet l
  undisturbed : ∀ l', l = .txn l' → s.txns.Undisturbed l'
  writes : ∀ id call, l = .write id call → ∃ value now, call = .intent (rowKey table) value now
  publishes : ∀ id, l = .publish id → rowKey table ∈ s.txns.tracked id

section

variable {table : Uuid} {clock : ClockState} {s s' : Server Row} {l : Server.Label Row}

theorem view_empty_step {key : Bytes} (hi : s.Timely) (hkey : s.kv.view key = .empty)
    (hl : ∀ id call, l = .write id call → ∃ k value now, k ≠ key ∧ call = .intent k value now)
    (h : s.step l = some s') : s'.kv.view key = .empty := by
  have howner : ∀ id, (s.kv.view key).owner ≠ some id := by
    rw [hkey]
    nofun
  cases l with
  | txn l =>
    obtain ⟨txns, -, rfl⟩ := step_cases h
    exact hkey
  | write id call =>
    obtain ⟨-, rfl⟩ := step_cases h
    obtain ⟨k, value, now, hne, rfl⟩ := hl id call rfl
    show (WriteCall.exec s.kv id (.intent k value now)).view key = .empty
    by_cases hb : (s.kv.view k).blocks id
    · obtain ⟨o, -, he⟩ : ∃ o, _ ∧ s.kv.writeIntentImpl id k value now = .error _ :=
        Table.writeIntentImpl_of_blocks hi.wf hb
      simp only [WriteCall.exec, he]
      exact hkey
    · simp only [WriteCall.exec, Table.writeIntentImpl_eq_replay hi.wf hb]
      rw [Table.view_replayIntent hi.wf, if_neg (Ne.symm hne)]
      exact hkey
  | publish id =>
    obtain ⟨c, -, rfl⟩ := step_cases h
    rw [Table.view_commit hi.wf, KeyState.commit_of_owner_ne (howner id), hkey]
  | release id =>
    obtain ⟨-, rfl⟩ := step_cases h
    rw [Table.view_abort hi.wf, KeyState.abort_of_owner_ne (howner id), hkey]

theorem tracked_step {id : TxnId} {key : Bytes} (hi : s.Timely) (h : s.step l = some s')
    (hk : key ∈ s.txns.tracked id) : key ∈ s'.txns.tracked id := by
  obtain ⟨l', -, hkept⟩ := kept_step hi h
  exact hkept.tracked id key hk

theorem committedAt_step {id : TxnId} {c : Nat} (hi : s.Timely) (h : s.step l = some s')
    (hc : s.txns.committedAt id = some c) : s'.txns.committedAt id = some c := by
  obtain ⟨l', -, hkept⟩ := kept_step hi h
  exact hkept.committedAt id c hc

namespace Base

theorem versions_le (hb : Base table clock s) :
    ∀ m ∈ (s.kv.view (rowKey table)).commits, m.version ≤ s.txns.clock.hlc.last := by
  intro m hm
  rcases hb.versions m hm with hle | ⟨id, hc, -⟩
  · exact hle.trans hb.clock_le
  · exact hb.isolated.commit_le id m.version hc

theorem step (hb : Base table clock s) (hx : Expected table s l) (h : s.step l = some s') :
    Base table clock s' := by
  have htimely := hb.timely.step hx.quiet h
  have hmanager : s.txns.clock.hlc.last ≤ s'.txns.clock.hlc.last ∧
      (∀ r, s'.txns.Drawn r → clock.hlc.last ≤ r) ∧ Isolated s'.txns := by
    obtain he | ⟨l', rfl, htxns⟩ := txns_step h
    · rw [he]
      exact ⟨le_rfl, hb.drawn_ge, hb.isolated⟩
    have hquiet := hx.undisturbed l' rfl
    have hk := Sys.kept_of_step hb.timely.table htxns
    refine ⟨hk.clock hquiet.ticks, fun r hd => ?_,
      hb.isolated.step hb.timely.locks hb.timely.table hquiet htxns⟩
    rcases hk.drawn r hd with hold | ⟨t, wall, rfl, rfl, -⟩
    · exact hb.drawn_ge r hold
    · exact hb.clock_le.trans (lt_tick wall.toNat (hquiet.ticks rfl)).le
  obtain ⟨hclock, hdrawn, hisolated⟩ := hmanager
  refine ⟨htimely, hisolated, hb.clock_le.trans hclock, hdrawn, ?_, ?_⟩
  · intro key hin hne
    refine view_empty_step hb.timely (hb.alone key hin hne) ?_ h
    intro id call hl
    obtain ⟨value, now, rfl⟩ := hx.writes id call hl
    exact ⟨rowKey table, value, now, Ne.symm hne, rfl⟩
  have hold : ∀ m ∈ (s.kv.view (rowKey table)).commits, m.version ≤ clock.hlc.last ∨
      ∃ id, s'.txns.committedAt id = some m.version ∧ rowKey table ∈ s'.txns.tracked id := by
    intro m hm
    refine (hb.versions m hm).imp_right ?_
    rintro ⟨id, hc, ht⟩
    exact ⟨id, committedAt_step hb.timely h hc, tracked_step hb.timely h ht⟩
  by_cases hpub : ∃ id, l = .publish id ∧ (s.kv.view (rowKey table)).owner = some id
  · obtain ⟨id, rfl, hown⟩ := hpub
    obtain ⟨c, hc, rfl⟩ := step_cases h
    intro m hm
    rw [Table.view_commit hb.timely.wf] at hm
    rcases KeyState.mem_commits_commit.mp hm with hm | ⟨value, -, rfl⟩
    · exact hold m hm
    · exact .inr ⟨id, hc, hx.publishes id rfl⟩
  · rw [commits_step hb.timely h fun id hl hown => hpub ⟨id, hl, hown⟩]
    exact hold

end Base

end

/-! ## What a session knows -/

theorem contains_rowKey (table : Uuid) : (range table).Contains (rowKey table) := by
  constructor
  · exact le_of_lt (append_left_lt (by decide))
  · exact append_left_lt (by decide)

variable {name : String} {table : Uuid} {updated : SequenceState}

theorem readRow_eq_ok {kv : MemKvEngine Row} {key : Bytes} (hwf : kv.WF)
    (halone : ∀ key, (range table).Contains key → key ≠ rowKey table → kv.view key = .empty)
    (h : readRow table name kv readTs = .ok (key, updated)) :
    key = rowKey table ∧ ∃ row base, kv.get (rowKey table) readTs = some row ∧
      SequenceState.fromRow row = .ok base ∧ base.advance name = .ok updated := by
  have hle : (range table).start ≤ (range table).stop :=
    (contains_rowKey table).1.trans (contains_rowKey table).2.le
  obtain ⟨rows, hrows, -, hmem⟩ := scan_spec kv hle readTs
  simp only [readRow, hrows, Except.mapError, Result.bind_eq_ok, Result.required_eq_ok,
    Result.pure_eq_ok, Prod.mk.injEq, Except.ok.injEq, exists_eq_left'] at h
  obtain ⟨pair, hpair, base, hbase, next, hnext, rfl, rfl⟩ := h
  obtain ⟨hin, e, he, hvalue, -⟩ := (hmem pair).mp (mem_of_mem_head? hpair)
  have hget : kv.get pair.key readTs = some pair.value :=
    get_eq_some_iff.mpr ⟨e, he, hvalue⟩
  have hkey : pair.key = rowKey table := by
    by_contra hne
    rw [get_eq hwf, halone pair.key hin hne] at hget
    cases hget
  rw [hkey] at hget
  exact ⟨hkey, pair.value, base, hget, hbase, hnext⟩

section

variable (table : Uuid) (name : String) (s : Server Row)

/-- The new state was computed from what the open transaction reads. -/
def Based (id : TxnId) (updated : SequenceState) : Prop :=
  s.txns.Open id ∧ ∃ r row base, s.txns.readAt id = some r ∧
    s.kv.get (rowKey table) r = some row ∧ SequenceState.fromRow row = .ok base ∧
    base.advance name = .ok updated

/-- The transaction has tracked the row and has its new content pending. -/
def Holds (id : TxnId) (updated : SequenceState) : Prop :=
  rowKey table ∈ s.txns.tracked id ∧
  (s.kv.view (rowKey table)).pending = some (id, some updated.toRow)

/-- The state of the server as a session at `p` knows it. -/
def Sane (t : Thread) : Pc → Prop
  | .idle | .beginning | .failed _ | .aborted _ => True
  | .started id r => s.txns.readAt id = some r ∧ s.txns.Open id
  | .changed id key updated => key = rowKey table ∧ Based table name s id updated
  | .tracked id key updated => key = rowKey table ∧ Based table name s id updated ∧
      rowKey table ∈ s.txns.tracked id
  | .written id updated => Based table name s id updated ∧ Holds table s id updated
  | .checked id updated => s.txns.pc t = .checked id ∧ Holds table s id updated
  | .stamped id updated c => s.txns.pc t = .stamped id c ∧ Holds table s id updated
  | .committed id updated c => s.txns.committedAt id = some c ∧ Holds table s id updated

end

/-- A call that is not made by the thread and not about its transaction. -/
structure Foreign (t : Thread) (id : TxnId) (l : Server.Label Row) : Prop where
  untouched : ¬ l.Touches id
  check : ∀ u, l ≠ .txn (.commitCheck u id)
  abort : l ≠ .txn (.abortTxn id)
  tick : ∀ wall saved, l ≠ .txn (.commitTick t wall saved)
  finish : l ≠ .txn (.commitFinish t)

section

variable {table : Uuid} {name : String} {s s' : Server Row} {l : Server.Label Row} {t : Thread}
  {id : TxnId} {updated : SequenceState}

theorem open_step (hi : s.Timely) (h : s.step l = some s')
    (hcheck : ∀ u, l ≠ .txn (.commitCheck u id)) (habort : l ≠ .txn (.abortTxn id))
    (ho : s.txns.Open id) : s'.txns.Open id := by
  obtain ⟨l', hl, hk⟩ := kept_step hi h
  exact hk.opened id ho (fun u hu => hcheck u (hl _ hu nofun)) fun hu => habort (hl _ hu nofun)

theorem Based.step (hi : s.Timely) (h : s.step l = some s')
    (hcheck : ∀ u, l ≠ .txn (.commitCheck u id)) (habort : l ≠ .txn (.abortTxn id))
    (hb : Based table name s id updated) : Based table name s' id updated := by
  obtain ⟨ho, r, row, base, hr, hget, hbase⟩ := hb
  refine ⟨open_step hi h hcheck habort ho, r, row, base, readAt_step hi h hr, ?_, hbase⟩
  rw [hi.get_step (.inr ⟨id, hr⟩) h]
  exact hget

theorem Holds.step (hi : s.Timely) (h : s.step l = some s') (hl : ¬ l.Touches id)
    (hh : Holds table s id updated) : Holds table s' id updated :=
  ⟨tracked_step hi h hh.1, pending_step hi h hl hh.2⟩

theorem pc_step (hi : s.Timely) (h : s.step l = some s') (hl : Foreign t id l)
    (hc : (s.txns.pc t).commits = some id) : s'.txns.pc t = s.txns.pc t := by
  obtain ⟨l', hcall, hkept⟩ := kept_step hi h
  exact hkept.pc t id hc (fun wall saved hu => hl.tick wall saved (hcall _ hu nofun))
    fun hu => hl.finish (hcall _ hu nofun)

theorem Sane.step {p : Pc} (hi : s.Timely) (h : s.step l = some s')
    (hl : ∀ id, p.txn = some id → Foreign t id l) (hs : Sane table name s t p) :
    Sane table name s' t p := by
  cases p with
  | idle | beginning | failed | aborted => trivial
  | started id r =>
    have hf := hl id rfl
    exact ⟨readAt_step hi h hs.1, open_step hi h hf.check hf.abort hs.2⟩
  | changed id key updated =>
    have hf := hl id rfl
    exact ⟨hs.1, hs.2.step hi h hf.check hf.abort⟩
  | tracked id key updated =>
    have hf := hl id rfl
    exact ⟨hs.1, hs.2.1.step hi h hf.check hf.abort, tracked_step hi h hs.2.2⟩
  | written id updated =>
    have hf := hl id rfl
    exact ⟨hs.1.step hi h hf.check hf.abort, hs.2.step hi h hf.untouched⟩
  | checked id updated | stamped id updated c =>
    obtain ⟨hpc, hh⟩ := hs
    have hkeep := pc_step hi h (hl id rfl) (by rw [hpc]; rfl)
    exact ⟨hkeep.trans hpc, hh.step hi h (hl id rfl).untouched⟩
  | committed id updated c =>
    exact ⟨committedAt_step hi h hs.1, hs.2.step hi h (hl id rfl).untouched⟩

theorem Sane.holds {p : Pc} (hs : Sane table name s t p) (hp : p.holds = some (id, updated)) :
    Holds table s id updated := by
  cases p with
  | written | checked | stamped | committed =>
    cases hp
    exact hs.2
  | _ => cases hp

end

theorem Pc.holds_of_issued {p : Pc} {id : TxnId} {c : Nat}
    (h : p.issued = some (id, updated, c)) : p.holds = some (id, updated) := by
  cases p with
  | stamped | committed =>
    cases h
    rfl
  | _ => cases h

theorem Pc.txn_of_holds {p : Pc} {id : TxnId}
    (h : p.holds = some (id, updated)) : p.txn = some id := by
  cases p with
  | written | checked | stamped | committed =>
    cases h
    rfl
  | _ => cases h

/-! ## The newest row -/

/-- The row in the store and the values handed out: all of them are returned, or
a session has drawn the commit timestamp for the next one. -/
inductive RowIs (table : Uuid) (name : String) (init : SequenceState) (q : State) : Prop
  | settled (cur : SequenceState) (none : ∀ t, (q.pc t).issued = none)
      (draws : SequenceState.Draws name init q.returned cur)
      (newest : ∀ ts, (∀ m ∈ (q.server.kv.view (rowKey table)).commits, m.version ≤ ts) →
        q.server.kv.get (rowKey table) ts = some cur.toRow)
      (checked : ∀ t id updated, q.pc t = .checked id updated → cur.advance name = .ok updated)
  | issued (t : Thread) (id : TxnId) (cur : SequenceState) (c : Nat)
      (here : (q.pc t).issued = some (id, cur, c))
      (draws : SequenceState.Draws name init (q.returned ++ [cur.lastValue]) cur)
      (older : ∀ m ∈ (q.server.kv.view (rowKey table)).commits, m.version ≤ c)

structure Inv (table : Uuid) (name : String) (clock : ClockState) (init : SequenceState)
    (q : State) : Prop where
  base : Base table clock q.server
  known : ∀ t id, (q.pc t).txn = some id → q.server.txns.readAt id ≠ none
  distinct : ∀ t u id, (q.pc t).txn = some id → (q.pc u).txn = some id → t = u
  sane : ∀ t, Sane table name q.server t (q.pc t)
  row : RowIs table name init q

section

variable {table : Uuid} {name : String} {clock : ClockState} {init : SequenceState}
  {q q' : State} {server : Server Row} {l : Server.Label Row} {t : Thread} {p : Pc} {id : TxnId}
  {updated : SequenceState} {c : Nat}

/-- Every value drawn is returned, as the first case of `RowIs` says. -/
structure Settled (table : Uuid) (name : String) (init : SequenceState) (q : State)
    (cur : SequenceState) : Prop where
  unissued : ∀ t, (q.pc t).issued = none
  draws : SequenceState.Draws name init q.returned cur
  newest : ∀ ts, (∀ m ∈ (q.server.kv.view (rowKey table)).commits, m.version ≤ ts) →
    q.server.kv.get (rowKey table) ts = some cur.toRow
  checked : ∀ t id updated, q.pc t = .checked id updated → cur.advance name = .ok updated

theorem Settled.goto {cur : SequenceState} (h : Settled table name init q cur)
    (hwf : q.server.kv.WF) (hwf' : server.kv.WF)
    (hcommits : (server.kv.view (rowKey table)).commits =
      (q.server.kv.view (rowKey table)).commits)
    (hp : p.issued = none) (hpchk : ∀ id updated, p = .checked id updated →
      cur.advance name = .ok updated) : RowIs table name init (q.goto t p server) := by
  have hpc : ∀ u, (q.goto t p server).pc u = if u = t then p else q.pc u :=
    fun u => update_apply _ _ _ _
  refine .settled cur ?_ h.draws ?_ ?_
  · intro u
    rw [hpc]
    split
    · exact hp
    · exact h.unissued u
  · intro ts hts
    rw [show (q.goto t p server).server.kv.get (rowKey table) ts =
      q.server.kv.get (rowKey table) ts from get_eq_of_commits hwf' hwf hcommits]
    exact h.newest ts (by rw [← hcommits]; exact hts)
  · intro u id updated hu
    rw [hpc] at hu
    split at hu
    · exact hpchk id updated hu
    · exact h.checked u id updated hu

namespace Inv

theorem holder_unique (hi : Inv table name clock init q) {u : Thread} {id' : TxnId}
    {updated' : SequenceState} (ht : (q.pc t).holds = some (id, updated))
    (hu : (q.pc u).holds = some (id', updated')) : t = u := by
  have hp := ((hi.sane t).holds ht).2
  have hp' := ((hi.sane u).holds hu).2
  rw [hp] at hp'
  obtain ⟨rfl, -⟩ := Prod.mk.inj (some.inj hp')
  exact hi.distinct t u id (Pc.txn_of_holds ht) (Pc.txn_of_holds hu)

end Inv

/-- The server after a step of one session: what the others know of it stays. -/
structure Others (table : Uuid) (name : String) (clock : ClockState) (q : State) (t : Thread)
    (server : Server Row) : Prop where
  base : Base table clock server
  read : ∀ id r, q.server.txns.readAt id = some r → server.txns.readAt id = some r
  sane : ∀ u, u ≠ t → Sane table name server u (q.pc u)

theorem Others.wf (h : Others table name clock q t server) : server.kv.WF := h.base.timely.wf

namespace Inv

variable (hi : Inv table name clock init q)

include hi

theorem timely : q.server.Timely := hi.base.timely

theorem others_refl (t : Thread) : Others table name clock q t q.server :=
  ⟨hi.base, fun _ _ h => h, fun u _ => hi.sane u⟩

theorem others (hx : Expected table q.server l) (h : q.server.step l = some server)
    (hforeign : ∀ u id, u ≠ t → (q.pc u).txn = some id → Foreign u id l) :
    Others table name clock q t server :=
  ⟨hi.base.step hx h, fun _ _ hr => readAt_step hi.timely h hr,
    fun u hu => (hi.sane u).step hi.timely h fun id hid => hforeign u id hu hid⟩

theorem goto_returned (ho : Others table name clock q t server)
    {returned : List Int} (hknown : ∀ id, p.txn = some id → server.txns.readAt id ≠ none)
    (hfresh : ∀ u id, u ≠ t → p.txn = some id → (q.pc u).txn ≠ some id)
    (hsane : Sane table name server t p)
    (hrow : RowIs table name init { q.goto t p server with returned := returned }) :
    Inv table name clock init { q.goto t p server with returned := returned } := by
  have hpc : ∀ u, (q.goto t p server).pc u = if u = t then p else q.pc u :=
    fun u => update_apply _ _ _ _
  refine ⟨ho.base, ?_, ?_, ?_, hrow⟩
  · intro u id hu
    rw [hpc] at hu
    split at hu
    · exact hknown id hu
    obtain ⟨r, hr⟩ := ne_none_iff_exists'.mp (hi.known u id hu)
    show server.txns.readAt id ≠ none
    rw [ho.read id r hr]
    nofun
  · intro u v id hu hv
    rw [hpc] at hu hv
    split at hu
    next hut =>
      split at hv
      next hvt => rw [hut, hvt]
      next hvt => exact absurd hv (hfresh v id hvt hu)
    next hut =>
      split at hv
      · exact absurd hu (hfresh u id hut hv)
      · exact hi.distinct u v id hu hv
  · intro u
    rw [hpc]
    split
    next hut =>
      rw [hut]
      exact hsane
    next hut => exact ho.sane u hut

theorem goto_own (ho : Others table name clock q t server)
    (hp : ∀ id, p.txn = some id → (q.pc t).txn = some id) (hsane : Sane table name server t p)
    (hrow : RowIs table name init (q.goto t p server)) :
    Inv table name clock init (q.goto t p server) := by
  refine hi.goto_returned ho (fun id hid => ?_) (fun u id hu hid hid' => hu ?_) hsane hrow
  · obtain ⟨r, hr⟩ := ne_none_iff_exists'.mp (hi.known t id (hp id hid))
    rw [ho.read id r hr]
    nofun
  · exact hi.distinct u t id hid' (hp id hid)

theorem row_neutral (hwf : server.kv.WF) (hcommits : (server.kv.view (rowKey table)).commits =
      (q.server.kv.view (rowKey table)).commits)
    (hissued : p.issued = (q.pc t).issued)
    (hchecked : ∀ id updated, p = .checked id updated → q.pc t = .checked id updated) :
    RowIs table name init (q.goto t p server) := by
  cases hi.row with
  | settled cur hnone hdraws hnewest hchk =>
    exact Settled.goto ⟨hnone, hdraws, hnewest, hchk⟩ hi.timely.wf hwf hcommits
      (hissued.trans (hnone t)) fun id updated hp => hchk t id updated (hchecked id updated hp)
  | issued u id cur c here hdraws holder =>
    refine .issued u id cur c ?_ hdraws ?_
    · show (update q.pc t p u).issued = _
      rw [update_apply]
      split
      next hu => rw [hissued, ← hu, here]
      · exact here
    · show ∀ m ∈ (server.kv.view (rowKey table)).commits, m.version ≤ c
      rw [hcommits]
      exact holder

variable {l : Txn.Label}

theorem upkeep (hx : Expected table q.server (.txn l))
    (h : q.server.step (.txn l) = some server) (hforeign : ∀ u id, Foreign u id (.txn l)) :
    Inv table name clock init { q with server := server } := by
  have hq : ({ q with server := server } : State) = q.goto 0 (q.pc 0) server := by
    rw [goto, update_eq_self]
  rw [hq]
  have ho : Others table name clock q 0 server := hi.others hx h fun u id _ _ => hforeign u id
  refine hi.goto_own ho (fun _ hid => hid) ?_ ?_
  · exact (hi.sane 0).step hi.timely h fun id _ => hforeign 0 id
  · exact hi.row_neutral ho.wf (commits_step hi.timely h nofun) rfl
      fun _ _ hp => hp

theorem scan {r : Nat} (hpc : q.pc t = .started id r) :
    Inv table name clock init
      (q.goto t (State.afterScan id (readRow table name q.server.kv r)) q.server) := by
  have hsane : Sane table name q.server t (.started id r) := hpc ▸ hi.sane t
  cases hread : readRow table name q.server.kv r with
  | ok found =>
    obtain ⟨key, updated⟩ := found
    obtain ⟨rfl, row, base, hget, hbase, hadv⟩ :=
      readRow_eq_ok hi.timely.wf hi.base.alone hread
    refine hi.goto_own (hi.others_refl t) (fun id' hid => by rw [hpc]; exact hid) ?_ ?_
    · exact ⟨rfl, hsane.2, r, row, base, hsane.1, hget, hbase, hadv⟩
    · exact hi.row_neutral hi.timely.wf rfl (by rw [hpc]; rfl) (by rintro _ _ ⟨⟩)
  | error e =>
    refine hi.goto_own (hi.others_refl t) (fun id' hid => by rw [hpc]; exact hid) trivial ?_
    exact hi.row_neutral hi.timely.wf rfl (by rw [hpc]; rfl) (by rintro _ _ ⟨⟩)

theorem call_neutral
    (hx : Expected table q.server (.txn l)) (h : q.server.step (.txn l) = some server)
    (hforeign : ∀ u id, u ≠ t → (q.pc u).txn = some id → Foreign u id (.txn l))
    (hp : ∀ id, p.txn = some id → (q.pc t).txn = some id) (hsane : Sane table name server t p)
    (hissued : p.issued = (q.pc t).issued)
    (hchecked : ∀ id updated, p = .checked id updated → q.pc t = .checked id updated) :
    Inv table name clock init (q.goto t p server) := by
  have ho : Others table name clock q t server := hi.others hx h hforeign
  exact hi.goto_own ho hp hsane (hi.row_neutral ho.wf
    (commits_step hi.timely h nofun) hissued hchecked)

theorem insert (hpc : q.pc t = .beginning) (hx : Expected table q.server (.txn (.beginInsert t id)))
    (h : q.server.step (.txn (.beginInsert t id)) = some server) :
    Inv table name clock init
      (q.goto t (.started id ((server.txns.readAt id).getD 0)) server) := by
  have hforeign : ∀ u id', Foreign u id' (.txn (.beginInsert t id)) :=
    fun _ _ => ⟨nofun, nofun, nofun, nofun, nofun⟩
  have ho : Others table name clock q t server := hi.others hx h fun u id' _ _ => hforeign u id'
  obtain ⟨txns, htxns, hserver⟩ := step_cases h
  obtain ⟨r, -, -, hnew, htxns'⟩ := Sys.beginInsert_inv htxns
  have hread : server.txns.readAt id = some r := by
    rw [hserver, htxns']
    exact update_self _ _ _
  have hopen : server.txns.Open id := open_step hi.timely h (hforeign t id).check
    (hforeign t id).abort (Sys.open_of_fresh hi.timely.table hnew)
  rw [hread]
  refine hi.goto_returned ho ?_ ?_ ⟨hread, hopen⟩ ?_
  · rintro _ ⟨⟩
    rw [hread]
    nofun
  · rintro u _ - ⟨⟩ hid
    exact hi.known u id hid hnew
  · exact hi.row_neutral ho.wf (commits_step hi.timely h nofun)
      (by rw [hpc]; rfl) (by rintro _ _ ⟨⟩)

theorem track {key : Bytes} (hpc : q.pc t = .changed id key updated)
    (hx : Expected table q.server (.txn (.trackWrite id key)))
    (h : q.server.step (.txn (.trackWrite id key)) = some server) :
    Inv table name clock init (q.goto t (.tracked id key updated) server) := by
  obtain ⟨rfl, hbased⟩ : Sane table name q.server t (.changed id key updated) := hpc ▸ hi.sane t
  refine hi.call_neutral hx h (fun _ _ _ _ => ⟨nofun, nofun, nofun, nofun, nofun⟩)
    (fun id' hid => by rw [hpc]; exact hid) ⟨rfl, hbased.step hi.timely h nofun nofun, ?_⟩
    (by rw [hpc]; rfl) (by rintro _ _ ⟨⟩)
  -- The record of an open transaction is there, so the key is added to it.
  obtain ⟨⟨hcommitted, haborted, -⟩, r, row, base, hr, -⟩ := hbased
  obtain ⟨txns, htxns, rfl⟩ := step_cases h
  obtain ⟨-, ⟨hnone, -⟩ | ⟨record, -, rfl⟩⟩ := Sys.trackWrite_inv htxns
  · exact absurd hnone (hi.timely.table.present id (by rw [hr]; nofun) hcommitted haborted)
  show rowKey table ∈ update q.server.txns.tracked id _ id
  rw [update_self]
  exact mem_append_right _ (mem_singleton_self _)

theorem write {key : Bytes} {now : Nat} (hpc : q.pc t = .tracked id key updated)
    (h : q.server.step (.write id (.intent key (some updated.toRow) now)) = some server) :
    Inv table name clock init (q.goto t (State.afterWrite id updated
      (q.server.kv.writeIntentImpl id key (some updated.toRow) now)) server) := by
  obtain ⟨rfl, hbased, htracked⟩ : Sane table name q.server t (.tracked id key updated) :=
    hpc ▸ hi.sane t
  have hown : (q.pc t).txn = some id := by rw [hpc]; rfl
  have hx : Expected table q.server (.write id (.intent (rowKey table) (some updated.toRow) now)) :=
    ⟨⟨nofun, nofun⟩, nofun, by rintro _ _ ⟨⟩; exact ⟨_, _, rfl⟩, nofun⟩
  have ho : Others table name clock q t server := by
    refine hi.others hx h fun u id' hu hid => ⟨?_, nofun, nofun, nofun, nofun⟩
    rintro rfl
    exact hu (hi.distinct u t id hid hown)
  have hrow : ∀ p : Pc, p.issued = none → (∀ id updated, p ≠ .checked id updated) →
      RowIs table name init (q.goto t p server) := fun p hp hc =>
    hi.row_neutral ho.wf (commits_step hi.timely h nofun)
      (by rw [hpc, hp]; rfl) fun id' u hpu => absurd hpu (hc id' u)
  by_cases hb : (q.server.kv.view (rowKey table)).blocks id
  · obtain ⟨o, -, he⟩ : ∃ o, _ ∧ q.server.kv.writeIntentImpl id (rowKey table)
        (some updated.toRow) now = .error _ := Table.writeIntentImpl_of_blocks hi.timely.wf hb
    rw [he]
    exact hi.goto_own ho (fun id' hid => hown.trans hid) trivial (hrow _ rfl (by rintro _ _ ⟨⟩))
  rw [Table.writeIntentImpl_eq_replay hi.timely.wf hb]
  refine hi.goto_own ho (fun id' hid => hown.trans hid) ⟨hbased.step hi.timely h nofun nofun,
    tracked_step hi.timely h htracked, ?_⟩ (hrow _ rfl (by rintro _ _ ⟨⟩))
  obtain ⟨-, rfl⟩ := step_cases h
  show ((WriteCall.exec q.server.kv id (.intent _ _ now)).view _).pending = _
  simp only [WriteCall.exec, Table.writeIntentImpl_eq_replay hi.timely.wf hb]
  rw [Table.view_replayIntent hi.timely.wf, if_pos rfl, KeyState.write, if_neg hb]
  rfl

/-- With the row pending for a session that has no commit timestamp, every value
drawn is returned. -/
theorem settled_of_holds (hh : (q.pc t).holds = some (id, updated)) (hn : (q.pc t).issued = none) :
    ∃ cur, Settled table name init q cur := by
  cases hi.row with
  | settled cur hnone hdraws hnewest hchk => exact ⟨cur, hnone, hdraws, hnewest, hchk⟩
  | issued u id' cur c here hdraws holder =>
    have hut := hi.holder_unique hh (Pc.holds_of_issued here)
    rw [← hut, hn] at here
    cases here

/-- The conflict check finds every version of the row that is newer than the
snapshot, so the state was computed from the newest one. -/
theorem newest_of_check (hs : Settled table name init q cur)
    (hbased : Based table name q.server id updated) (hholds : Holds table q.server id updated)
    (hdisjoint : ∀ r b c, q.server.txns.readAt id = some r → q.server.txns.committedAt b = some c
      → r < c → ∀ k ∈ q.server.txns.tracked id, k ∉ q.server.txns.tracked b) :
    cur.advance name = .ok updated := by
  obtain ⟨-, r, row, base, hr, hget, hbase, hadv⟩ := hbased
  have hle : ∀ m ∈ (q.server.kv.view (rowKey table)).commits, m.version ≤ r := by
    intro m hm
    rcases hi.base.versions m hm with hold | ⟨b, hb, htracked⟩
    · exact hold.trans (hi.base.drawn_ge r (.inr ⟨id, hr⟩))
    by_contra hlt
    exact hdisjoint r b m.version hr hb (not_le.mp hlt) _ hholds.1 htracked
  rw [hs.newest r hle] at hget
  rw [← some.inj hget, SequenceState.fromRow_toRow] at hbase
  rw [Except.ok.inj hbase]
  exact hadv

theorem foreign_txn (hown : (q.pc t).txn = some id)
    (hcheck : ∀ u id', l = .commitCheck u id' → id' = id)
    (habort : ∀ id', l = .abortTxn id' → id' = id)
    (htick : ∀ u wall saved, l = .commitTick u wall saved → u = t)
    (hfinish : ∀ u, l = .commitFinish u → u = t) :
    ∀ u id', u ≠ t → (q.pc u).txn = some id' → Foreign u id' (.txn l) := by
  intro u id' hu hid
  have hne : id' ≠ id := by
    rintro rfl
    exact hu (hi.distinct u t id' hid hown)
  refine ⟨nofun, ?_, ?_, ?_, ?_⟩
  · rintro v ⟨⟩
    exact hne (hcheck v id' rfl)
  · rintro ⟨⟩
    exact hne (habort id' rfl)
  · rintro wall saved ⟨⟩
    exact hu (htick u wall saved rfl)
  · rintro ⟨⟩
    exact hu (hfinish u rfl)

theorem check (hpc : q.pc t = .written id updated)
    (hx : Expected table q.server (.txn (.commitCheck t id)))
    (h : q.server.step (.txn (.commitCheck t id)) = some server) :
    Inv table name clock init (q.goto t (State.afterCheck t id updated server) server) := by
  obtain ⟨hbased, hholds⟩ : Sane table name q.server t (.written id updated) := hpc ▸ hi.sane t
  have hown : (q.pc t).txn = some id := by rw [hpc]; rfl
  have hforeign := hi.foreign_txn hown (l := .commitCheck t id) (by rintro _ _ ⟨⟩; rfl) nofun nofun
    nofun
  have ho : Others table name clock q t server := hi.others hx h hforeign
  have hcommits : (server.kv.view (rowKey table)).commits = _ := commits_step hi.timely h nofun
  obtain ⟨txns, htxns, hserver⟩ := step_cases h
  obtain ⟨hidle, -, hcase⟩ := Sys.commitCheck_inv htxns
  have hfail : server.txns.pc t = .idle →
      Inv table name clock init (q.goto t (afterCheck t id updated server) server) := by
    intro hp
    rw [afterCheck, hp]
    exact hi.goto_own ho (fun id' hid => hown.trans hid) trivial
      (hi.row_neutral ho.wf hcommits (by rw [hpc]; rfl) (by rintro _ _ ⟨⟩))
  rcases hcase with htxns' | ⟨record, hrec, hst, htxns' | ⟨hck, htxns'⟩⟩
  · exact hfail (by rw [hserver, htxns']; exact hidle)
  · exact hfail (by rw [hserver, htxns']; exact hidle)
  have hp : server.txns.pc t = .checked id := by
    rw [hserver, htxns']
    exact update_self _ _ _
  rw [afterCheck, hp]
  refine hi.goto_own ho (fun id' hid => hown.trans hid)
    ⟨hp, hholds.step hi.timely h nofun⟩ ?_
  obtain ⟨cur, hs⟩ := hi.settled_of_holds (t := t) (by rw [hpc]; rfl) (by rw [hpc]; rfl)
  have hadv : cur.advance name = .ok updated := hi.newest_of_check hs hbased hholds
    fun r b c hr hb hlt => hi.base.isolated.disjoint_of_check hi.timely.table hrec hst hck hr
      hb hlt
  refine hs.goto hi.timely.wf ho.wf hcommits rfl ?_
  rintro _ _ ⟨⟩
  exact hadv

theorem tick {wall : UInt64} {saved : Bool} (hpc : q.pc t = .checked id updated)
    (hx : Expected table q.server (.txn (.commitTick t wall saved)))
    (h : q.server.step (.txn (.commitTick t wall saved)) = some server) :
    Inv table name clock init (q.goto t (State.afterTick t id updated server) server) := by
  obtain ⟨hchecked, hholds⟩ : Sane table name q.server t (.checked id updated) := hpc ▸ hi.sane t
  have hown : (q.pc t).txn = some id := by rw [hpc]; rfl
  have hforeign := hi.foreign_txn hown (l := .commitTick t wall saved) nofun nofun
    (by rintro _ _ _ ⟨⟩; rfl) nofun
  have ho : Others table name clock q t server := hi.others hx h hforeign
  have hcommits : (server.kv.view (rowKey table)).commits = _ := commits_step hi.timely h nofun
  obtain ⟨cur, hs⟩ := hi.settled_of_holds (t := t) (by rw [hpc]; rfl) (by rw [hpc]; rfl)
  obtain ⟨txns, htxns, hserver⟩ := step_cases h
  obtain ⟨id', hpc', clock', -, htxns' | htxns'⟩ := Sys.commitTick_inv htxns
  · have hp : server.txns.pc t = .stamped id' (q.server.txns.clock.hlc.tick wall.toNat).1 := by
      rw [hserver, htxns']
      exact update_self _ _ _
    obtain rfl : id' = id := by
      rw [hchecked] at hpc'
      cases hpc'
      rfl
    rw [afterTick, hp]
    refine hi.goto_own ho (fun id' hid => hown.trans hid)
      ⟨hp, hholds.step hi.timely h nofun⟩ ?_
    refine .issued t id' updated (q.server.txns.clock.hlc.tick wall.toNat).1 ?_
      (hs.draws.snoc (hs.checked t id' updated hpc)) ?_
    · show (update q.pc t _ t).issued = _
      rw [update_self]
      rfl
    show ∀ m ∈ (server.kv.view (rowKey table)).commits, _
    rw [hcommits]
    intro m hm
    exact (hi.base.versions_le m hm).trans
      (lt_tick wall.toNat ((hx.undisturbed _ rfl).ticks rfl)).le
  · have hp : server.txns.pc t = .idle := by
      rw [hserver, htxns']
      exact update_self _ _ _
    rw [afterTick, hp]
    exact hi.goto_own ho (fun id' hid => hown.trans hid) trivial
      (hs.goto hi.timely.wf ho.wf hcommits rfl (by rintro _ _ ⟨⟩))

theorem finish (hpc : q.pc t = .stamped id updated c)
    (hx : Expected table q.server (.txn (.commitFinish t)))
    (h : q.server.step (.txn (.commitFinish t)) = some server) :
    Inv table name clock init (q.goto t (.committed id updated c) server) := by
  obtain ⟨hstamped, hholds⟩ : Sane table name q.server t (.stamped id updated c) := hpc ▸ hi.sane t
  have hown : (q.pc t).txn = some id := by rw [hpc]; rfl
  have hforeign := hi.foreign_txn hown (l := .commitFinish t) nofun nofun nofun
    (by rintro _ ⟨⟩; rfl)
  refine hi.call_neutral hx h hforeign (fun id' hid => hown.trans hid)
    ⟨?_, hholds.step hi.timely h nofun⟩ (by rw [hpc]; rfl) (by rintro _ _ ⟨⟩)
  obtain ⟨txns, htxns, rfl⟩ := step_cases h
  obtain ⟨id', ts, record, hpc', -, rfl⟩ := Sys.commitFinish_inv htxns
  rw [hstamped] at hpc'
  cases hpc'
  exact update_self _ _ _

theorem abort (hpc : q.pc t = .failed id) (hx : Expected table q.server (.txn (.abortTxn id)))
    (h : q.server.step (.txn (.abortTxn id)) = some server) :
    Inv table name clock init (q.goto t (.aborted id) server) := by
  have hown : (q.pc t).txn = some id := by rw [hpc]; rfl
  have hforeign := hi.foreign_txn hown (l := .abortTxn id) nofun (by rintro _ ⟨⟩; rfl) nofun nofun
  exact hi.call_neutral hx h hforeign (fun id' hid => hown.trans hid) trivial (by rw [hpc]; rfl)
    (by rintro _ _ ⟨⟩)

theorem foreign_store (hown : (q.pc t).txn = some id)
    {l : Server.Label Row} (htouch : ∀ id', l.Touches id' → id = id') (htxn : ∀ l', l ≠ .txn l') :
    ∀ u id', u ≠ t → (q.pc u).txn = some id' → Foreign u id' l := by
  intro u id' hu hid
  refine ⟨fun ht => ?_, fun _ => htxn _, htxn _, fun _ _ => htxn _, htxn _⟩
  obtain rfl := htouch id' ht
  exact hu (hi.distinct u t id hid hown)

theorem release (hpc : q.pc t = .aborted id) (h : q.server.step (.release id) = some server) :
    Inv table name clock init (q.goto t .idle server) := by
  have hown : (q.pc t).txn = some id := by rw [hpc]; rfl
  have ho : Others table name clock q t server :=
    hi.others (l := .release id) ⟨⟨nofun, nofun⟩, nofun, nofun, nofun⟩ h
      (hi.foreign_store hown (fun _ ht => ht) nofun)
  exact hi.goto_own ho nofun trivial (hi.row_neutral ho.wf
    (commits_step hi.timely h nofun) (by rw [hpc]; rfl) (by rintro _ _ ⟨⟩))

theorem publish (hpc : q.pc t = .committed id updated c)
    (h : q.server.step (.publish id) = some server) :
    Inv table name clock init
      { q.goto t .idle server with returned := q.returned ++ [updated.lastValue] } := by
  obtain ⟨hcommitted, htracked, hpending⟩ : Sane table name q.server t (.committed id updated c) :=
    hpc ▸ hi.sane t
  have hholds : (q.pc t).holds = some (id, updated) := by rw [hpc]; rfl
  have hown : (q.pc t).txn = some id := by rw [hpc]; rfl
  have ho : Others table name clock q t server :=
    hi.others (l := .publish id) ⟨⟨nofun, nofun⟩, nofun, nofun, by rintro _ ⟨⟩; exact htracked⟩ h
      (hi.foreign_store hown (fun _ ht => ht) nofun)
  refine hi.goto_returned ho nofun nofun trivial ?_
  cases hi.row with
  | settled cur hnone =>
    have hn := hnone t
    rw [hpc] at hn
    cases hn
  | issued u id' cur c' here hdraws holder =>
    obtain rfl := hi.holder_unique hholds (Pc.holds_of_issued here)
    rw [hpc] at here
    cases here
    have hview : server.kv.view (rowKey table) =
        (q.server.kv.view (rowKey table)).addCommit id (some updated.toRow) c := by
      obtain ⟨c', hc', rfl⟩ := step_cases h
      obtain rfl := some.inj (hc'.symm.trans hcommitted)
      rw [Table.view_commit hi.timely.wf, KeyState.commit_of_pending hpending]
    have hothers : ∀ u, u ≠ t → (q.pc u).holds = none := by
      intro u hu
      by_contra hne
      obtain ⟨⟨id', updated'⟩, hu'⟩ := ne_none_iff_exists'.mp hne
      exact hu (hi.holder_unique hu' hholds)
    have hpc' : ∀ u, update q.pc t .idle u = if u = t then .idle else q.pc u :=
      fun u => update_apply _ _ _ _
    refine .settled updated ?_ hdraws ?_ ?_
    · intro u
      show (update q.pc t .idle u).issued = none
      rw [hpc']
      split
      · rfl
      next hu =>
      by_contra hne
      obtain ⟨⟨id', updated', c'⟩, hu'⟩ := ne_none_iff_exists'.mp hne
      have hh := Pc.holds_of_issued hu'
      rw [hothers u hu] at hh
      cases hh
    · intro ts hts
      show server.kv.get (rowKey table) ts = _
      have hle : c ≤ ts := by
        refine hts ((MvccValue.intent id (some updated.toRow)).commitAt c) ?_
        show _ ∈ (server.kv.view (rowKey table)).commits
        rw [hview]
        exact mem_append_right _ (mem_singleton_self _)
      rw [get_eq ho.wf, hview]
      exact KeyState.read_addCommit holder hle
    · intro u id' updated' hu
      change update q.pc t .idle u = _ at hu
      rw [hpc'] at hu
      split at hu
      · cases hu
      next hut =>
      have hh : (q.pc u).holds = some (id', updated') := by rw [hu]; rfl
      rw [hothers u hut] at hh
      cases hh

end Inv

end

/-! ## Runs -/

/-- The steps that take a timestamp from the clock. -/
def Label.draws : Label → Bool
  | .begin _ _ | .tick _ _ _ => true
  | _ => false

namespace State

/-- The table `reap_finished` is called on at a step, if it is called there. -/
def reapedTable (q : State) : Label → Option Records
  | .finish t => q.server.txns.reapedTable (.commitFinish t)
  | .reap => q.server.txns.reapedTable .reap
  | _ => none

/-- The condition on one step: an attempt begins when every issued commit is
visible in the store, a reap keeps what an attempt that has not inserted its
record needs, and the clock is below the end of its range. -/
structure Calm (q : State) (l : Label) : Prop where
  begins : ∀ t wall, l = .begin t wall → q.server.AllPublished
  reaps : ∀ records, q.reapedTable l = some records →
    q.server.txns.ReapKeepsUnregistered records
  ticks : l.draws = true → q.server.txns.clock.hlc.last < u64Max

end State

section

variable {table : Uuid} {name : String} {clock : ClockState} {init : SequenceState} {q q' : State}
  {l : Label}

theorem expected_txn {s : Server Row} {l : Txn.Label}
    (hbegins : ∀ t wall, l = .beginDraw t wall → s.AllPublished)
    (hreaps : ∀ records, s.txns.reapedTable l = some records →
      s.txns.ReapKeepsUnregistered records)
    (hticks : l.draws = true → s.txns.clock.hlc.last < u64Max)
    (htracks : ∀ id key, l = .trackWrite id key → s.txns.committedAt id = none) :
    Expected table s (.txn l) := by
  refine ⟨⟨?_, ?_⟩, ?_, nofun, nofun⟩
  · rintro t wall ⟨⟩
    exact hbegins t wall rfl
  · rintro l' ⟨⟩
    exact hticks
  · rintro l' ⟨⟩
    exact ⟨hreaps, htracks, hticks⟩

theorem get_eq_of_le {kv : MemKvEngine Row} {key : Bytes} (hwf : kv.WF)
    (ha : ∀ m ∈ (kv.view key).commits, m.version ≤ a)
    (hb : ∀ m ∈ (kv.view key).commits, m.version ≤ b) : kv.get key a = kv.get key b := by
  rw [get_eq hwf, get_eq hwf, KeyState.read, KeyState.read,
    filter_eq_self.mpr fun m hm => decide_eq_true (ha m hm),
    filter_eq_self.mpr fun m hm => decide_eq_true (hb m hm)]

namespace Inv

theorem start {kv : MemKvEngine Row} (h : Stored table clock kv init) :
    Inv table name clock init (.init clock kv) where
  base := {
    timely := .init clock h.wf
    isolated := .init clock
    clock_le := le_rfl
    drawn_ge := by
      rintro r (⟨t, ht⟩ | ⟨id, hr⟩)
      · cases ht
      · cases hr
    alone := h.alone
    versions := fun m hm => .inl (h.old m hm) }
  known := nofun
  distinct := nofun
  sane := fun _ => trivial
  row := .settled init (fun _ => rfl) .nil
    (fun _ hts => (get_eq_of_le h.wf hts h.old).trans h.row) nofun

theorem step (hi : Inv table name clock init q) (hc : q.Calm l)
    (h : q.step table name l = some q') : Inv table name clock init q' := by
  cases l with
  | begin t wall =>
    simp only [State.step] at h
    split at h
    next hpc =>
      obtain ⟨server, hserver, rfl⟩ := call_eq_some.mp h
      refine hi.call_neutral (l := .beginDraw t wall)
        (expected_txn ?_ nofun (fun _ => hc.ticks rfl) nofun) hserver
        (fun _ _ _ _ => ⟨nofun, nofun, nofun, nofun, nofun⟩) nofun trivial (by rw [hpc]; rfl)
        (by rintro _ _ ⟨⟩)
      rintro _ _ ⟨⟩
      exact hc.begins t wall rfl
    · cases h
  | insert t id =>
    simp only [State.step] at h
    split at h
    next hpc =>
      obtain ⟨server, hserver, rfl⟩ := call_eq_some.mp h
      exact hi.insert hpc (expected_txn nofun nofun nofun nofun) hserver
    · cases h
  | scan t =>
    simp only [State.step] at h
    split at h
    next id r hpc =>
      cases h
      exact hi.scan hpc
    · cases h
  | track t =>
    simp only [State.step] at h
    split at h
    next id key updated hpc =>
      obtain ⟨server, hserver, rfl⟩ := call_eq_some.mp h
      have hopen : q.server.txns.Open id := by
        have hsane := hi.sane t
        rw [hpc] at hsane
        exact hsane.2.1
      refine hi.track hpc (expected_txn nofun nofun nofun ?_) hserver
      rintro _ _ ⟨⟩
      exact hopen.1
    · cases h
  | write t now =>
    simp only [State.step] at h
    split at h
    next id key updated hpc =>
      obtain ⟨server, hserver, rfl⟩ := call_eq_some.mp h
      exact hi.write hpc hserver
    · cases h
  | check t =>
    simp only [State.step] at h
    split at h
    next id updated hpc =>
      obtain ⟨server, hserver, rfl⟩ := call_eq_some.mp h
      exact hi.check hpc (expected_txn nofun nofun nofun nofun) hserver
    · cases h
  | tick t wall saved =>
    simp only [State.step] at h
    split at h
    next id updated hpc =>
      obtain ⟨server, hserver, rfl⟩ := call_eq_some.mp h
      exact hi.tick hpc (expected_txn nofun nofun (fun _ => hc.ticks rfl) nofun) hserver
    · cases h
  | finish t =>
    simp only [State.step] at h
    split at h
    next id updated c hpc =>
      obtain ⟨server, hserver, rfl⟩ := call_eq_some.mp h
      exact hi.finish hpc (expected_txn nofun hc.reaps nofun nofun) hserver
    · cases h
  | publish t =>
    simp only [State.step] at h
    split at h
    next id updated c hpc =>
      obtain ⟨q₁, hcall, rfl⟩ := map_eq_some_iff.mp h
      obtain ⟨server, hserver, rfl⟩ := call_eq_some.mp hcall
      exact hi.publish hpc hserver
    · cases h
  | abort t =>
    simp only [State.step] at h
    split at h
    next id hpc =>
      obtain ⟨server, hserver, rfl⟩ := call_eq_some.mp h
      exact hi.abort hpc (expected_txn nofun nofun nofun nofun) hserver
    · cases h
  | release t =>
    simp only [State.step] at h
    split at h
    next id hpc =>
      obtain ⟨server, hserver, rfl⟩ := call_eq_some.mp h
      exact hi.release hpc hserver
    · cases h
  | reap =>
    obtain ⟨server, hserver, rfl⟩ := upkeep_eq_some.mp h
    exact hi.upkeep (l := .reap) (expected_txn nofun hc.reaps nofun nofun) hserver
      fun _ _ => ⟨nofun, nofun, nofun, nofun, nofun⟩
  | gcScan t =>
    obtain ⟨server, hserver, rfl⟩ := upkeep_eq_some.mp h
    exact hi.upkeep (l := .gcScan t) (expected_txn nofun nofun nofun nofun) hserver
      fun _ _ => ⟨nofun, nofun, nofun, nofun, nofun⟩
  | gcNow t wall =>
    obtain ⟨server, hserver, rfl⟩ := upkeep_eq_some.mp h
    exact hi.upkeep (l := .gcNow t wall) (expected_txn nofun nofun nofun nofun) hserver
      fun _ _ => ⟨nofun, nofun, nofun, nofun, nofun⟩

theorem of_run {kv : MemKvEngine Row} (h : Stored table clock kv init)
    (hrun : Run (Guarded (State.Step table name) State.Calm) (.init clock kv) ls q) :
    Inv table name clock init q :=
  hrun.invariant (I := Inv table name clock init) (.start h)
    fun _ _ _ hi hs => hi.step hs.1 hs.2

theorem draws (hi : Inv table name clock init q) : ∃ values cur,
    SequenceState.Draws name init values cur ∧ q.returned <+: values := by
  cases hi.row with
  | settled cur _ hdraws => exact ⟨_, cur, hdraws, prefix_refl _⟩
  | issued _ _ cur _ _ hdraws => exact ⟨_, cur, hdraws, prefix_append _ _⟩

end Inv

end

/-- In every run of calm steps, whatever the interleaving of the sessions, the
values returned are pairwise different, lie within the bounds, and differ from
the first one by a multiple of the increment. -/
theorem values_unique (table : Uuid) (name : String) (clock : ClockState) (kv : MemKvEngine Row)
    (init : SequenceState) (hstored : Stored table clock kv init) (hvalid : init.Valid)
    (hcycle : init.cycle = false) (ls : List Label) (q : State)
    (hrun : Run (Guarded (State.Step table name) State.Calm) (.init clock kv) ls q) :
    q.returned.Nodup ∧ (∀ v ∈ q.returned, init.min ≤ v ∧ v ≤ init.max) ∧
    ∀ first ∈ q.returned.head?, ∀ v ∈ q.returned, init.increment ∣ v - first := by
  obtain ⟨values, cur, hdraws, rest, rfl⟩ := (Inv.of_run hstored hrun).draws
  obtain ⟨hnodup, hin, hdvd⟩ := hdraws.distinct hvalid hcycle
  refine ⟨hnodup.sublist (sublist_append_left _ _),
    fun v hv => hin v (mem_append_left _ hv), fun first hfirst v hv => ?_⟩
  refine hdvd first ?_ v (mem_append_left _ hv)
  cases hret : q.returned with
  | nil =>
    rw [hret] at hv
    cases hv
  | cons a as =>
    rw [hret] at hfirst
    exact hfirst

/-! ## Concrete runs -/

/-- The sequence `CREATE SEQUENCE` makes without options. -/
def ascending : SequenceState := ⟨1, false, 1, 1, i64Max, 1, false, 1, "bigint"⟩

/-- The store after `initialize`, whose transaction committed at `1`. -/
def initialized : MemKvEngine Row :=
  Table.publish .empty 0 [.put (rowKey 9) ascending.toRow] 1

/-- The attempt of a session up to the scan. -/
def attemptReads (t : Thread) (txnId : TxnId) : List Label :=
  [.begin t 0, .insert t txnId, .scan t]

/-- The rest of the attempt up to the return of `commit_txn`. -/
def attemptCommits (t : Thread) : List Label :=
  [.track t, .write t 0, .check t, .tick t 0 true, .finish t]

theorem view_initialized (key : Bytes) : initialized.view key =
    if key = rowKey 9 then KeyState.empty.addCommit 0 (some ascending.toRow) 1 else .empty := by
  rw [initialized, Table.view_publish Table.wf_empty nofun fun _ _ h => h.1 rfl]
  by_cases hkey : key = rowKey 9
  · have hw : written key [.put (rowKey 9) ascending.toRow] = some (some ascending.toRow) := by
      rw [written, written, none_or]
      exact if_pos hkey.symm
    rw [hw, if_pos hkey]
    rfl
  have hw : written key [.put (rowKey 9) ascending.toRow] = none :=
    written_eq_none.mpr fun op hop => by
      rw [mem_singleton.mp hop]
      exact Ne.symm hkey
  rw [hw, if_neg hkey]
  rfl

theorem stored_initialized : Stored 9 ⟨⟨1⟩, 1000000⟩ initialized ascending := by
  have hwf : initialized.WF := Table.wf_empty.publish
  have hrow := (view_initialized (rowKey 9)).trans (if_pos rfl)
  refine ⟨hwf, ?_, ?_, ?_, ?_⟩
  · rw [get_eq hwf, hrow]
    exact KeyState.read_addCommit nofun le_rfl
  · rw [hrow]
    intro m hm
    rw [mem_singleton.mp hm]
    exact le_rfl
  · rw [hrow]
    rfl
  · intro key _ hne
    rw [view_initialized, if_neg hne]

/-- A check that implies `Calm`: an attempt begins when the store has no intent,
and a reap drops no commit. -/
def State.CalmCheck (q : State) (l : Label) : Prop :=
  match l with
  | .begin _ _ => q.server.kv.intents.keys = [] ∧ q.server.txns.clock.hlc.last < u64Max
  | .tick _ _ _ => q.server.txns.clock.hlc.last < u64Max
  | .finish _ | .reap => ((q.reapedTable l).all fun records => records.entries.all fun e =>
      e.2.commitTs.isNone || ((reapFinished records).get? e.1).isSome) = true
  | _ => True

instance (q : State) (l : Label) : Decidable (q.CalmCheck l) := by
  unfold State.CalmCheck
  split <;> infer_instance

theorem keeps_of_check {s : Sys} {records : Records} (h : (records.entries.all fun e =>
      e.2.commitTs.isNone || ((reapFinished records).get? e.1).isSome) = true) :
    s.ReapKeepsUnregistered records := by
  intro t r _ id record c hget hc _
  have hkeep := all_eq_true.mp h (id, record) (OrdMap.mem_entries.mpr hget)
  rw [hc] at hkeep
  simpa [isSome_iff_ne_none] using hkeep

theorem Inv.calm_of_check {init : SequenceState} (hi : Inv table name clock init q)
    (h : q.CalmCheck l) : q.Calm l := by
  refine ⟨?_, ?_, ?_⟩
  · rintro t wall rfl
    exact hi.timely.allPublished h.1
  · intro records hr
    cases l with
    | finish | reap =>
      simp only [State.CalmCheck, hr, all_some] at h
      exact keeps_of_check h
    | _ => cases hr
  · intro hd
    cases l with
    | begin => exact h.2
    | tick => exact h
    | _ => cases hd

theorem run_calm_of_check {init : SequenceState} {kv : MemKvEngine Row}
    (hs : Stored table clock kv init)
    (h : Run (Guarded (State.Step table name) State.CalmCheck) (.init clock kv) ls q) :
    Run (Guarded (State.Step table name) State.Calm) (.init clock kv) ls q := by
  generalize hstart : State.init clock kv = start at h
  induction h with
  | nil => exact .nil _
  | snoc _ hstep ih =>
    subst hstart
    exact ih.snoc ⟨(Inv.of_run hs ih).calm_of_check hstep.1, hstep.2⟩

/-- Session `1` begins and reads between `commit_txn` of session `0` and the
publication of its row: both hand out the value 1. -/
theorem same_value_twice : ∃ q : State,
    Run (State.Step 9 "s") (.init ⟨⟨1⟩, 1000000⟩ initialized)
      (attemptReads 0 1 ++ attemptCommits 0 ++ attemptReads 1 2 ++ .publish 0 ::
        attemptCommits 1 ++ [.publish 1]) q ∧
    q.returned = [1, 1] := by
  exact exists_run (by decide +kernel)

/-- Sessions `2` and `1` read the row, session `0` commits the value 1, session `1`
fails its conflict check, tries again and commits the value 2. -/
def retried : List Label :=
  attemptReads 2 4 ++ attemptReads 1 2 ++ attemptReads 0 1 ++ attemptCommits 0 ++ [.publish 0] ++
    [.track 1, .write 1 0, .check 1, .abort 1, .release 1] ++
    attemptReads 1 3 ++ attemptCommits 1 ++ [.publish 1]

theorem values_unique_retried : ∃ q : State,
    Run (Guarded (State.Step 9 "s") State.Calm) (.init ⟨⟨1⟩, 1000000⟩ initialized) retried q ∧
    q.returned = [1, 2] ∧ q.returned.Nodup := by
  obtain ⟨q, hq, hret⟩ : ∃ q, execOk (step 9 "s") State.CalmCheck
      (.init ⟨⟨1⟩, 1000000⟩ initialized) retried = some q ∧ q.returned = [1, 2] := by
    decide +kernel
  have hcalm := run_calm_of_check stored_initialized (run_of_execOk hq)
  exact ⟨q, hcalm, hret, (values_unique 9 "s" _ _ ascending stored_initialized
    ⟨by decide, by decide, by decide⟩ rfl _ q hcalm).1⟩

end NodusDb.Nextval
