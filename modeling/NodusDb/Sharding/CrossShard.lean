import NodusDb.Sharding.PendingTxn

/-!
# Committing over several groups

A coordinator prepares the groups a transaction wrote to, records the decision in the meta group,
commits every group and removes the record; a recovery pass does the same for the records it finds.
Both may stop between any two commands and run next to each other. `Net.Sound` holds in every state
reached, and `Net.Calm` is what a step keeps for those who do not take it.
-/

namespace NodusDb

open Raft
open Raft.Migration (EpochMutationV1)

/-- What a session knows of a group it wrote to. -/
structure TxnParticipant where
  epoch : UInt64
  intents : List Bytes
  deriving DecidableEq

/-- The arguments of `commit_cross_shard`. -/
structure CrossShard where
  txn : Uuid
  targets : OrdMap Bytes TxnParticipant
  commitTs : UInt64

namespace CrossShard

variable (c : CrossShard)

def epochs : OrdMap Bytes UInt64 := c.targets.mapVals fun _ target => target.epoch

def participants : List Bytes := c.epochs.keys

/-- The decision record; epochs are left out when they are all zero. -/
def record (enabled : Bool) : PendingTxn :=
  ⟨c.participants, c.commitTs,
    if enabled ∨ c.epochs.entries.any (·.2 ≠ 0) then c.epochs else .empty⟩

/-- The vote a group is asked for, if it is asked. -/
def prepareCommand (enabled : Bool) (target : TxnParticipant) : Option ShardCommand :=
  if enabled ∨ target.epoch ≠ 0 then
    some (.epochPrepareV2 target.epoch c.txn (!target.intents.isEmpty))
  else if target.intents.isEmpty then none
  else some (epochCommand enabled target.epoch (.prepare c.txn))

end CrossShard

/-! ## The groups -/

/-- The groups, what copies of the meta group may hold, and the ids drawn for
writes of the meta group. -/
structure Net where
  groups : Bytes → Replica
  metaHistory : List Kv
  used : List Uuid

namespace Net

def set (n : Net) (g : Bytes) (r : Replica) : Net where
  groups := Function.update n.groups g r
  metaHistory := if g = shardMeta then r.kv :: n.metaHistory else n.metaHistory
  used := n.used

def draw (n : Net) (id : Uuid) : Net := { n with used := id :: n.used }

variable [Hashes] [Serde]

/-- Replicate a command and wait for the answer. There is no next state when the
group stops. -/
def submit (n : Net) (g : Bytes) (cmd : ShardCommand) (index : UInt64) : Option (Net × Bool) :=
  if index.toNat < (n.groups g).nextIndex then none
  else
    match (n.groups g).group.apply cmd index with
    | .ok (group, response) => some (n.set g ⟨group, index.toNat + 1⟩, response.success)
    | .error _ => none

end Net

/-! ## The coordinator -/

/-- Where `commit_cross_shard` is. -/
inductive Coord
  | preparing (rest : List (Bytes × TxnParticipant))
  | aborting (rest : List Bytes)
  | putting (record : PendingTxn)
  | recording (record : PendingTxn) (id : Uuid) (epoch : UInt64)
  | driving (rest : List Bytes)
  | deleting
  | clearing (id : Uuid) (epoch : UInt64)
  | done
  | failed
  deriving DecidableEq

/-- What the next command depends on besides the place: whether migrations are
enabled, an id to draw, the epoch of the meta group that is read, and the index
the command gets in its log. -/
structure Turn where
  enabled : Bool
  id : Uuid
  epoch : UInt64
  index : UInt64

namespace Coord

variable [Hashes] [Serde]

/-- Submit a command and go on according to the answer. -/
def send (n : Net) (g : Bytes) (cmd : ShardCommand) (turn : Turn) (yes no : Coord) :
    Option (Net × Coord) :=
  (n.submit g cmd turn.index).map fun (n', ok) => (n', if ok then yes else no)

/-- One command of `commit_cross_shard`. -/
def next (c : CrossShard) (n : Net) (turn : Turn) : Coord → Option (Net × Coord)
  | preparing [] => some (n, putting (c.record turn.enabled))
  | preparing ((g, target) :: rest) =>
    match c.prepareCommand turn.enabled target with
    | none => some (n, preparing rest)
    | some cmd => send n g cmd turn (preparing rest) (aborting c.participants)
  | aborting [] => some (n, failed)
  | aborting (g :: rest) => send n g (.abortTxn c.txn false) turn (aborting rest) (aborting rest)
  | putting record =>
    if turn.id ∈ n.used ∨ turn.id = c.txn then none
    else
      send (n.draw turn.id) shardMeta
        (epochCommand turn.enabled turn.epoch (.put turn.id (recordKey c.txn) record.encode)) turn
        (recording record turn.id turn.epoch) failed
  | recording _ id epoch =>
    send n shardMeta (epochCommand turn.enabled epoch (.commit id c.commitTs)) turn
      (driving c.participants) failed
  | driving [] => some (n, deleting)
  | driving (g :: rest) =>
    send n g
      (epochCommand turn.enabled ((c.epochs.get? g).getD 0) (.commit c.txn c.commitTs)) turn
      (driving rest) failed
  | deleting =>
    if turn.id ∈ n.used ∨ turn.id = c.txn then none
    else
      send (n.draw turn.id) shardMeta
        (epochCommand turn.enabled turn.epoch (.delete turn.id (recordKey c.txn))) turn
        (clearing turn.id turn.epoch) failed
  | clearing id epoch =>
    send n shardMeta (epochCommand turn.enabled epoch (.commit id (c.commitTs + 1))) turn
      done failed
  | done | failed => none

/-- A command that could not be submitted, or got no answer. -/
def error (c : CrossShard) : Coord → Coord
  | preparing _ => aborting c.participants
  | aborting (_ :: rest) => aborting rest
  | _ => failed

end Coord

/-! ## Recovery -/

/-- Where a pass of `recover_pending_txns` is. -/
inductive PassPc
  | idle
  | next (rows : List (KvPair Raft.Value))
  | driving (txn : Uuid) (key : Bytes) (record : PendingTxn) (rest : List Bytes)
      (rows : List (KvPair Raft.Value))
  | deleting (key : Bytes) (version : UInt64) (rows : List (KvPair Raft.Value))
  | clearing (version : UInt64) (id : Uuid) (epoch : UInt64) (rows : List (KvPair Raft.Value))
  | done
  | failed

/-- A pass, the copy of the meta group that it scanned and the rows its scan returned. -/
structure Pass where
  copy : Kv
  scanned : List (KvPair Raft.Value)
  pc : PassPc

namespace Pass

variable [TextParsers]

/-- The transaction and the record of a row. -/
def parse (row : KvPair Raft.Value) : Option (Uuid × PendingTxn) :=
  match row.value with
  | .data bytes =>
    match PendingTxn.decode bytes with
    | .ok record =>
      (TextParsers.uuid (row.key.drop txn2pcPrefix.length)).map fun txn => (txn, record)
    | .error _ => none
  | _ => none

variable [Hashes] [Serde]

/-- Submit a command and go on if it is accepted. -/
def send (p : Pass) (n : Net) (g : Bytes) (cmd : ShardCommand) (turn : Turn) (yes : PassPc) :
    Option (Net × Pass) :=
  (n.submit g cmd turn.index).map fun (n', ok) => (n', { p with pc := if ok then yes else .failed })

/-- One command of `recover_pending_txns`. -/
def next (c : CrossShard) (n : Net) (turn : Turn) (p : Pass) : Option (Net × Pass) :=
  match p.pc with
  | .next [] => some (n, { p with pc := .done })
  | .next (row :: rows) =>
    match parse row with
    | some (txn, record) =>
      some (n, { p with pc := .driving txn row.key record record.participants rows })
    | none => some (n, { p with pc := .failed })
  | .driving _ key record [] rows =>
    match checkedSucc record.commitTs with
    | some version => some (n, { p with pc := .deleting key version rows })
    | none => some (n, { p with pc := .failed })
  | .driving txn key record (g :: rest) rows =>
    p.send n g
      (epochCommand turn.enabled ((record.epochs.get? g).getD 0) (.commit txn record.commitTs)) turn
      (.driving txn key record rest rows)
  | .deleting key version rows =>
    if turn.id ∈ n.used ∨ turn.id = c.txn then none
    else
      p.send (n.draw turn.id) shardMeta
        (epochCommand turn.enabled turn.epoch (.delete turn.id key)) turn
        (.clearing version turn.id turn.epoch rows)
  | .clearing version id epoch rows =>
    p.send n shardMeta (epochCommand turn.enabled epoch (.commit id version)) turn (.next rows)
  | .idle | .done | .failed => none

end Pass

/-! ## Runs -/

/-- The groups, a coordinator and the recovery passes. -/
structure Cluster where
  net : Net
  coord : Coord
  passes : Nat → Pass

inductive Cluster.Label
  | coord (turn : Turn)
  /-- The coordinator gets an error instead of an answer. -/
  | coordError
  /-- The coordinator stops; after a command this is also an answer that is lost. -/
  | coordCrash
  /-- A pass scans a copy of the meta group. -/
  | scan (i n : Nat)
  | pass (i : Nat) (turn : Turn)
  /-- A pass stops, or gets an error. -/
  | passError (i : Nat)
  /-- A command of nobody above. -/
  | other (g : Bytes) (cmd : ShardCommand) (index : UInt64)

namespace Cluster

variable [Hashes] [Serde] [TextParsers]

def setPass (s : Cluster) (i : Nat) (p : Pass) : Cluster :=
  { s with passes := Function.update s.passes i p }

def next (c : CrossShard) (s : Cluster) : Cluster.Label → Option Cluster
  | .coord turn => (s.coord.next c s.net turn).map fun (n, pc) => { s with net := n, coord := pc }
  | .coordError => some { s with coord := s.coord.error c }
  | .coordCrash => some { s with coord := .failed }
  | .scan i k =>
    match (s.passes i).pc, s.net.metaHistory[k]? with
    | .idle, some kv =>
      match MemKvEngine.scan kv txn2pcPrefix txn2pcEnd u64Max with
      | .ok rows => some (s.setPass i ⟨kv, rows, .next rows⟩)
      | .error _ => none
    | _, _ => none
  | .pass i turn =>
    ((s.passes i).next c s.net turn).map fun (n, p) => { s with net := n }.setPass i p
  | .passError i => some (s.setPass i { s.passes i with pc := .failed })
  | .other g cmd index =>
    (s.net.submit g cmd index).map fun (n, _) => { s with net := n }

end Cluster

/-! ## What is recorded and what is visible -/

def Net.view (n : Net) (g j : Bytes) : KeyState Raft.Value := (n.groups g).kv.view j

namespace CrossShard

variable (c : CrossShard) (n₀ n : Net)

/-- A row under this key would be taken for the transaction's record. -/
def Names [TextParsers] (key : Bytes) : Prop :=
  (txn2pcPrefix ≤ key ∧ key < txn2pcEnd) ∧
    TextParsers.uuid (key.drop txn2pcPrefix.length) = some c.txn

def IsRecord (value : Option Raft.Value) : Prop :=
  ∃ enabled, value = some (.data (c.record enabled).encode)

/-- The decision record was committed before a copy of the meta group was made. -/
def RecordedIn (kv : Kv) : Prop := ∃ m ∈ (kv.view (recordKey c.txn)).commits, c.IsRecord m.value

/-- The decision record was committed in the meta group. -/
def Recorded : Prop := ∃ m ∈ (n.view shardMeta (recordKey c.txn)).commits, c.IsRecord m.value

/-- The transaction had a pending write when its commit began. -/
def Held (g j : Bytes) (value : Option Raft.Value) : Prop :=
  (n₀.view g j).pending = some (c.txn, value)

/-- A write of the transaction as a version at the commit timestamp. -/
def version (value : Option Raft.Value) : MvccValue Raft.Value :=
  (MvccValue.intent c.txn value).commitAt c.commitTs.toNat

/-- All of the transaction's writes in a group are visible. -/
def VisibleAt (g : Bytes) : Prop :=
  ∀ j value, c.Held n₀ g j value → c.version value ∈ (n.view g j).commits

def Visible : Prop := ∀ g ∈ c.participants, c.VisibleAt n₀ n g

/-- What is written under the record key: the record, or its deletion once everything is visible. -/
def Entry (value : Option Raft.Value) : Prop := (value = none ∧ c.Visible n₀ n) ∨ c.IsRecord value

/-- Every write of the transaction is still pending, or visible. -/
def Intact : Prop :=
  ∀ g j value, c.Held n₀ g j value →
    (n.view g j).pending = some (c.txn, value) ∨ c.version value ∈ (n.view g j).commits

/-- No group has a version of the transaction. -/
def Invisible : Prop := ∀ g j, ∀ m ∈ (n.view g j).commits, m.txnId ≠ some c.txn

end CrossShard

/-- What holds of the groups in every state. -/
structure Net.Sound [TextParsers] (c : CrossShard) (n₀ n : Net) : Prop where
  wf : ∀ g, (n.groups g).kv.WF
  unused : c.txn ∉ n.used
  owned : ∀ j, c.Names j → ∀ id value, (n.view shardMeta j).pending = some (id, value) →
    id ∈ n.used ∧ j = recordKey c.txn ∧ c.Entry n₀ n value
  versions : ∀ j, c.Names j → ∀ m ∈ (n.view shardMeta j).commits,
    j = recordKey c.txn ∧ c.Entry n₀ n m.value ∧ m.version ≤ u64Max
  history : ∀ kv ∈ n.metaHistory, ∀ j, c.Names j →
    ∀ m ∈ (kv.view j).commits, m ∈ (n.view shardMeta j).commits
  silent : ¬ c.Recorded n → c.Invisible n
  intact : c.Recorded n → c.Intact n₀ n

/-- What every step keeps for those that do not take it. -/
structure Net.Frame (c : CrossShard) (n n' : Net) : Prop where
  commits : ∀ g j, ∀ m ∈ (n.view g j).commits, m ∈ (n'.view g j).commits
  used : n.used ⊆ n'.used
  pending : ∀ id ∈ n.used, ∀ value,
    (n'.view shardMeta (recordKey c.txn)).pending = some (id, value) →
    (n.view shardMeta (recordKey c.txn)).pending = some (id, value)

/-- What every step of a pass, or of nobody here, keeps for the coordinator. -/
structure Net.Quiet (c : CrossShard) (n₀ n n' : Net) : Prop where
  recorded : c.Recorded n' → c.Recorded n
  intact : c.Intact n₀ n → c.Intact n₀ n'
  intent : ∀ id value, c.IsRecord value →
    (n.view shardMeta (recordKey c.txn)).pending = some (id, value) →
    (n'.view shardMeta (recordKey c.txn)).pending = some (id, value)

namespace CrossShard

variable {c : CrossShard} {n₀ n n' : Net} {g : Bytes}

theorem Recorded.mono (h : c.Recorded n) (hf : Net.Frame c n n') : c.Recorded n' := by
  obtain ⟨m, hm, hrec⟩ := h
  exact ⟨m, hf.commits _ _ m hm, hrec⟩

theorem VisibleAt.mono (h : c.VisibleAt n₀ n g) (hf : Net.Frame c n n') : c.VisibleAt n₀ n' g :=
  fun j value hheld => hf.commits g j _ (h j value hheld)

theorem Entry.mono {value : Option Raft.Value} (h : c.Entry n₀ n value) (hf : Net.Frame c n n') :
    c.Entry n₀ n' value :=
  h.imp (fun hnone => ⟨hnone.1, fun g hg => (hnone.2 g hg).mono hf⟩) id

theorem Visible.mono (h : c.Visible n₀ n) (hf : Net.Frame c n n') : c.Visible n₀ n' :=
  fun g hg => (h g hg).mono hf

end CrossShard

namespace Net

variable {n : Net} {g : Bytes} {r : Replica}

theorem groups_set : (n.set g r).groups = Function.update n.groups g r := rfl

theorem view_set (g' j : Bytes) :
    (n.set g r).view g' j = if g' = g then r.kv.view j else n.view g' j := by
  rw [view, groups_set]
  by_cases h : g' = g
  · rw [if_pos h, h, Function.update_self]
  rw [if_neg h, Function.update_of_ne h]
  rfl

@[simp] theorem view_set_self (j : Bytes) : (n.set g r).view g j = r.kv.view j := by
  rw [view_set, if_pos rfl]

theorem view_set_of_ne (h : g' ≠ g) (j : Bytes) :
    (n.set g r).view g' j = n.view g' j := by
  rw [view_set, if_neg h]

theorem wf_set (h : ∀ g, (n.groups g).kv.WF) (hr : r.kv.WF) (g' : Bytes) :
    ((n.set g r).groups g').kv.WF := by
  rw [groups_set]
  by_cases hg : g' = g
  · rw [hg, Function.update_self]
    exact hr
  · rw [Function.update_of_ne hg]
    exact h g'

theorem mem_metaHistory_set (h : kv ∈ (n.set g r).metaHistory) :
    (g = shardMeta ∧ kv = r.kv) ∨ kv ∈ n.metaHistory := by
  unfold set at h
  split at h
  next hg =>
    rcases List.mem_cons.mp h with rfl | h
    · exact .inl ⟨hg, rfl⟩
    · exact .inr h
  · exact .inr h

section Effects

theorem commits_set (h : ∀ j, ∀ m ∈ (n.view g j).commits, m ∈ (r.kv.view j).commits)
    (g' j : Bytes) : ∀ m ∈ (n.view g' j).commits, m ∈ ((n.set g r).view g' j).commits := by
  intro m hm
  rw [view_set]
  split
  next hg => exact h j m (hg ▸ hm)
  · exact hm

theorem view_set_meta (h : g = shardMeta → r.kv.view j = n.view g j) :
    (n.set g r).view shardMeta j = n.view shardMeta j := by
  rw [view_set]
  split
  next hg =>
    subst hg
    exact h rfl
  · rfl

theorem Frame.refl : Frame c n n := ⟨fun _ _ _ hm => hm, fun _ hid => hid, fun _ _ _ hp => hp⟩

variable {c : CrossShard} {n₀ n : Net} {g : Bytes} {r : Replica}

/-- What a change of a group that is not for the transaction keeps of it. -/
structure Foreign (c : CrossShard) (n : Net) (g : Bytes) (kv : Kv) : Prop where
  wf : kv.WF
  grows : ∀ j, Grows c.txn (n.view g j) (kv.view j)
  keeps : ∀ j value, (n.view g j).pending = some (c.txn, value) → kv.view j = n.view g j

theorem Foreign.same (hwf : (n.groups g).kv.WF) : Foreign c n g (n.groups g).kv :=
  ⟨hwf, fun _ => .of_commits rfl, fun _ _ _ => rfl⟩

theorem Foreign.intact (hf : Foreign c n g r.kv) (h : c.Intact n₀ n) : c.Intact n₀ (n.set g r) := by
  intro g' j value hheld
  rw [view_set]
  split
  next hg =>
    subst hg
    rcases h g' j value hheld with hp | hm
    · rw [hf.keeps j value hp]
      exact .inl hp
    · exact .inr ((hf.grows j).kept _ hm)
  · exact h g' j value hheld

theorem Foreign.invisible (hf : Foreign c n g r.kv) (h : c.Invisible n) :
    c.Invisible (n.set g r) := by
  intro g' j m hm
  rw [view_set] at hm
  split at hm
  next hg =>
    subst hg
    rcases (hf.grows j).foreign m hm with hm | hne
    · exact h g' j m hm
    · exact hne
  · exact h g' j m hm

variable [TextParsers]

/-- Copies made before a change have no other versions under the keys that name
the transaction. -/
theorem Sound.history_set (h : Sound c n₀ n)
    (hcommits : ∀ g' j, ∀ m ∈ (n.view g' j).commits, m ∈ ((n.set g r).view g' j).commits) :
    ∀ kv ∈ (n.set g r).metaHistory, ∀ j, c.Names j →
      ∀ m ∈ (kv.view j).commits, m ∈ ((n.set g r).view shardMeta j).commits := by
  intro kv hkv j hj m hm
  rcases mem_metaHistory_set hkv with ⟨rfl, rfl⟩ | hkv
  · rw [view_set_self]
    exact hm
  · exact hcommits _ _ m (h.history kv hkv j hj m hm)

/-- A change that is not for the transaction; what it does to the keys that name
the transaction is left to the caller. -/
theorem Sound.foreign (h : Sound c n₀ n) (hf : Foreign c n g r.kv)
    (howned : ∀ j, c.Names j → ∀ id value,
      ((n.set g r).view shardMeta j).pending = some (id, value) →
      id ∈ n.used ∧ j = recordKey c.txn ∧ c.Entry n₀ (n.set g r) value)
    (hversions : ∀ j, c.Names j → ∀ m ∈ ((n.set g r).view shardMeta j).commits,
      j = recordKey c.txn ∧ c.Entry n₀ (n.set g r) m.value ∧ m.version ≤ u64Max)
    (hintact : c.Recorded (n.set g r) → c.Intact n₀ n) : Sound c n₀ (n.set g r) where
  wf := wf_set h.wf hf.wf
  unused := h.unused
  owned := howned
  versions := hversions
  history := h.history_set (commits_set fun j => (hf.grows j).kept)
  silent hnot := by
    refine hf.invisible (h.silent fun hrec => hnot ?_)
    obtain ⟨m, hm, hrec⟩ := hrec
    exact ⟨m, commits_set (fun j => (hf.grows j).kept) _ _ m hm, hrec⟩
  intact hrec := hf.intact (hintact hrec)

theorem Sound.kept (h : Sound c n₀ n) (hf : Frame c n n') (hj : c.Names j)
    (hview : n'.view shardMeta j = n.view shardMeta j) :
    (∀ id value, (n'.view shardMeta j).pending = some (id, value) →
      id ∈ n.used ∧ j = recordKey c.txn ∧ c.Entry n₀ n' value) ∧
    ∀ m ∈ (n'.view shardMeta j).commits,
      j = recordKey c.txn ∧ c.Entry n₀ n' m.value ∧ m.version ≤ u64Max := by
  rw [hview]
  refine ⟨fun id value hp => ?_, fun m hm => ?_⟩
  · obtain ⟨hid, hkey, hentry⟩ := h.owned j hj id value hp
    exact ⟨hid, hkey, hentry.mono hf⟩
  · obtain ⟨hkey, hentry, hle⟩ := h.versions j hj m hm
    exact ⟨hkey, hentry.mono hf, hle⟩

/-- The groups stay sound, and nobody who does not take the step is disturbed. -/
structure Calm (c : CrossShard) (n₀ n n' : Net) : Prop where
  sound : Sound c n₀ n'
  frame : Frame c n n'
  quiet : Quiet c n₀ n n'

theorem Sound.other (h : Sound c n₀ n) (hname : c.Names (recordKey c.txn)) (hf : Foreign c n g r.kv)
    (hnames : g = shardMeta → ∀ j, c.Names j → r.kv.view j = n.view g j) :
    Calm c n₀ n (n.set g r) := by
  have hview : ∀ j, c.Names j → (n.set g r).view shardMeta j = n.view shardMeta j :=
    fun j hj => view_set_meta fun hg => hnames hg j hj
  have hrec : c.Recorded (n.set g r) → c.Recorded n := by
    rintro ⟨m, hm, hrec⟩
    rw [hview _ hname] at hm
    exact ⟨m, hm, hrec⟩
  have hframe : Frame c n (n.set g r) := by
    refine ⟨commits_set fun j => (hf.grows j).kept, fun _ hid => hid, fun id _ value hp => ?_⟩
    rwa [hview _ hname] at hp
  refine ⟨h.foreign hf (fun j hj => (h.kept hframe hj (hview j hj)).1)
    (fun j hj => (h.kept hframe hj (hview j hj)).2) fun hr => h.intact (hrec hr), hframe,
    hrec, hf.intact, fun id value _ hp => ?_⟩
  rwa [hview _ hname]

variable {ts : Nat} {version : UInt64} {value : Option Raft.Value} {id : Uuid}

theorem Sound.owner_ne (h : Sound c n₀ n) (hj : c.Names j) (hid : id ∉ n.used) :
    (n.view shardMeta j).owner ≠ some id := by
  intro ho
  obtain ⟨⟨id', value⟩, hp, rfl⟩ := Option.map_eq_some_iff.mp ho
  exact hid (h.owned j hj id' value hp).1

theorem Sound.view_commit (h : Sound c n₀ n) (hr : r.kv = (n.groups g).kv.commit id ts)
    (j : Bytes) : r.kv.view j = (n.view g j).commit id ts := by
  rw [hr, Table.view_commit (h.wf g)]
  rfl

theorem Sound.drive (h : Sound c n₀ n) (hname : c.Names (recordKey c.txn)) (hrec : c.Recorded n)
    (hr : r.kv = (n.groups g).kv.commit c.txn c.commitTs.toNat) :
    Calm c n₀ n (n.set g r) ∧ c.VisibleAt n₀ (n.set g r) g := by
  have hview : ∀ j, r.kv.view j = (n.view g j).commit c.txn c.commitTs.toNat := h.view_commit hr
  have hcommits : ∀ g' j, ∀ m ∈ (n.view g' j).commits, m ∈ ((n.set g r).view g' j).commits := by
    refine commits_set fun j m hm => ?_
    rw [hview]
    exact KeyState.mem_commits_commit.mpr (.inl hm)
  have hnames : ∀ j, c.Names j → (n.set g r).view shardMeta j = n.view shardMeta j := by
    refine fun j hj => view_set_meta fun hg => ?_
    subst hg
    rw [hview, KeyState.commit_of_owner_ne (h.owner_ne hj h.unused)]
  have hvisible : c.VisibleAt n₀ (n.set g r) g := by
    intro j value hheld
    rcases h.intact hrec g j value hheld with hp | hm
    · rw [view_set_self, hview]
      exact KeyState.mem_commits_commit.mpr (.inr ⟨value, hp, rfl⟩)
    · exact hcommits g j _ hm
  have hintact : c.Intact n₀ n → c.Intact n₀ (n.set g r) := by
    intro hi g' j value hheld
    by_cases hg : g' = g
    · subst hg
      exact .inr (hvisible j value hheld)
    · rw [view_set_of_ne hg]
      exact hi g' j value hheld
  have hframe : Frame c n (n.set g r) := by
    refine ⟨hcommits, fun _ hid => hid, fun id _ value hp => ?_⟩
    rwa [hnames _ hname] at hp
  refine ⟨⟨?_, hframe, ⟨fun _ => hrec, hintact, fun id value _ hp => ?_⟩⟩, hvisible⟩
  · exact ⟨wf_set h.wf (hr ▸ (h.wf g).commit _), h.unused,
      fun j hj => (h.kept hframe hj (hnames j hj)).1,
      fun j hj => (h.kept hframe hj (hnames j hj)).2, h.history_set hcommits,
      fun hnot => absurd (hrec.mono hframe) hnot, fun _ => hintact (h.intact hrec)⟩
  · rwa [hnames _ hname]

theorem Sound.release (h : Sound c n₀ n) (hname : c.Names (recordKey c.txn))
    (hnot : ¬ c.Recorded n) (hr : r.kv = (n.groups g).kv.abort c.txn) :
    Sound c n₀ (n.set g r) ∧ Frame c n (n.set g r) ∧ ¬ c.Recorded (n.set g r) := by
  have hview : ∀ j, r.kv.view j = (n.view g j).abort c.txn := by
    intro j
    rw [hr, Table.view_abort (h.wf g)]
    rfl
  have hcommits : ∀ g' j, ((n.set g r).view g' j).commits = (n.view g' j).commits := by
    intro g' j
    rw [view_set]
    split
    next hg => rw [hg, hview, KeyState.commits_abort]
    · rfl
  have hnames : ∀ j, c.Names j → (n.set g r).view shardMeta j = n.view shardMeta j := by
    refine fun j hj => view_set_meta fun hg => ?_
    subst hg
    rw [hview, KeyState.abort_of_owner_ne (h.owner_ne hj h.unused)]
  have hnot' : ¬ c.Recorded (n.set g r) := by
    rintro ⟨m, hm, hrec⟩
    rw [hcommits] at hm
    exact hnot ⟨m, hm, hrec⟩
  have hframe : Frame c n (n.set g r) := by
    refine ⟨fun g' j m hm => ?_, fun _ hid => hid, fun id _ value hp => ?_⟩
    · rwa [hcommits]
    · rwa [hnames _ hname] at hp
  refine ⟨⟨wf_set h.wf (hr ▸ (h.wf g).abort), h.unused,
    fun j hj => (h.kept hframe hj (hnames j hj)).1, fun j hj => (h.kept hframe hj (hnames j hj)).2,
    h.history_set hframe.commits, fun _ g' j m hm => ?_, fun hrec => absurd hrec hnot'⟩,
    hframe, hnot'⟩
  rw [hcommits] at hm
  exact h.silent hnot g' j m hm

theorem Sound.draw (h : Sound c n₀ n) (hid : id ≠ c.txn) : Sound c n₀ (n.draw id) where
  wf := h.wf
  unused hu := by
    rcases List.mem_cons.mp hu with heq | hu
    · exact hid heq.symm
    · exact h.unused hu
  owned j hj u value hp := by
    obtain ⟨hu, hrest⟩ := h.owned j hj u value hp
    exact ⟨List.mem_cons_of_mem _ hu, hrest⟩
  versions := h.versions
  history := h.history
  silent := h.silent
  intact := h.intact

omit [TextParsers] in
theorem view_write {kv : Kv} (hwf : kv.WF) (op : IntentOperation Raft.Value)
    (hfree : ¬ (kv.view op.key).blocks id) (j : Bytes) :
    (kv.replayAll id [op] 0).view j =
      if op.key = j then (kv.view j).setPending (some (id, op.value)) else kv.view j := by
  rw [Table.view_replayAll hwf]
  by_cases hj : op.key = j
  · have hw : written j [op] = some op.value := by simp [written, hj]
    rw [hw, if_pos hj]
    exact if_neg (hj ▸ hfree)
  · have hw : written j [op] = none := by simp [written, hj]
    rw [hw, if_neg hj]

/-- A new id's write in the meta group, of a record of this transaction or under
a key that does not name it. -/
theorem Sound.write (h : Sound c n₀ n) (hname : c.Names (recordKey c.txn))
    (hfresh : id ∉ n.used) (hid : id ≠ c.txn) (op : IntentOperation Raft.Value)
    (hkey : c.Names op.key → op.key = recordKey c.txn ∧ c.Entry n₀ n op.value)
    (hfree : ¬ (n.view shardMeta op.key).blocks id)
    (hr : r.kv = (n.groups shardMeta).kv.replayAll id [op] 0) :
    Calm c n₀ n ((n.draw id).set shardMeta r) ∧
      (op.key = recordKey c.txn →
        (((n.draw id).set shardMeta r).view shardMeta (recordKey c.txn)).pending =
          some (id, op.value)) := by
  have hview : ∀ j, r.kv.view j =
      if op.key = j then (n.view shardMeta j).setPending (some (id, op.value))
      else n.view shardMeta j := by
    intro j
    rw [hr]
    exact view_write (h.wf shardMeta) op hfree j
  have hcommits : ∀ j, (r.kv.view j).commits = (n.view shardMeta j).commits := by
    intro j
    rw [hview]
    split <;> rfl
  -- A key with a pending write of the transaction is not the one written.
  have hother : ∀ j u value, (n.view shardMeta j).pending = some (u, value) → u ≠ id →
      r.kv.view j = n.view shardMeta j := by
    intro j u value hp hne
    rw [hview, if_neg]
    rintro rfl
    exact hfree (KeyState.blocks_of_pending hp hne)
  have hf : Foreign c (n.draw id) shardMeta r.kv :=
    ⟨hr ▸ Table.WF.replayAll (h.wf shardMeta) _, fun j => .of_commits (hcommits j),
      fun j value hp => hother j c.txn value hp (Ne.symm hid)⟩
  have hrec : c.Recorded ((n.draw id).set shardMeta r) → c.Recorded n := by
    rintro ⟨m, hm, hrec⟩
    rw [view_set_self, hcommits] at hm
    exact ⟨m, hm, hrec⟩
  have hframe : Frame c n ((n.draw id).set shardMeta r) := by
    refine ⟨commits_set fun j m hm => ?_, fun u hu => List.mem_cons_of_mem _ hu,
      fun u hu value hp => ?_⟩
    · rw [hcommits]
      exact hm
    · rw [view_set_self, hview] at hp
      split at hp
      · cases hp
        exact absurd hu hfresh
      · exact hp
  refine ⟨⟨(h.draw hid).foreign hf (fun j hj u value hp => ?_) (fun j hj m hm => ?_)
    fun hr' => h.intact (hrec hr'), hframe,
    ⟨hrec, fun hi => hf.intact hi, fun u value hv hp => ?_⟩⟩, fun heq => ?_⟩
  · rw [view_set_self, hview] at hp
    split at hp
    next heq =>
      subst heq
      cases hp
      exact ⟨List.mem_cons_self, (hkey hj).1, (hkey hj).2.mono hframe⟩
    · obtain ⟨hu, hrest, hentry⟩ := h.owned j hj u value hp
      exact ⟨List.mem_cons_of_mem _ hu, hrest, hentry.mono hframe⟩
  · rw [view_set_self, hcommits] at hm
    obtain ⟨hrest, hentry, hle⟩ := h.versions j hj m hm
    exact ⟨hrest, hentry.mono hframe, hle⟩
  · have hu : u ∈ n.used := (h.owned _ hname u value hp).1
    rw [view_set_self, hother _ u value hp fun heq => hfresh (heq ▸ hu)]
    exact hp
  · rw [view_set_self, hview, if_pos heq]
    rfl

theorem Sound.foreign_commit (h : Sound c n₀ n) (hid : id ∈ n.used)
    (hr : r.kv = (n.groups g).kv.commit id ts) : Foreign c n g r.kv := by
  have hne : id ≠ c.txn := fun heq => h.unused (heq ▸ hid)
  refine ⟨hr ▸ (h.wf g).commit _, fun j => ?_, fun j value hp => ?_⟩
  · rw [h.view_commit hr]
    exact .commit hne
  · rw [h.view_commit hr, KeyState.commit_of_pending_ne hp hne.symm]

theorem Sound.commit (h : Sound c n₀ n) (hid : id ∈ n.used)
    (hr : r.kv = (n.groups shardMeta).kv.commit id version.toNat)
    (hintact : c.Recorded (n.set shardMeta r) → c.Intact n₀ n) :
    Sound c n₀ (n.set shardMeta r) ∧ Frame c n (n.set shardMeta r) := by
  have hf : Foreign c n shardMeta r.kv := h.foreign_commit hid hr
  have hframe : Frame c n (n.set shardMeta r) := by
    refine ⟨commits_set fun j => (hf.grows j).kept, fun _ hu => hu, fun u _ value hp => ?_⟩
    rw [view_set_self, h.view_commit hr] at hp
    exact KeyState.pending_of_commit hp
  refine ⟨h.foreign hf (fun j hj u value hp => ?_) (fun j hj m hm => ?_) hintact, hframe⟩
  · rw [view_set_self, h.view_commit hr] at hp
    obtain ⟨hu, hkey, hentry⟩ := h.owned j hj u value (KeyState.pending_of_commit hp)
    exact ⟨hu, hkey, hentry.mono hframe⟩
  rw [view_set_self, h.view_commit hr] at hm
  rcases KeyState.mem_commits_commit.mp hm with hm | ⟨value, hp, rfl⟩
  · obtain ⟨hkey, hentry, hle⟩ := h.versions j hj m hm
    exact ⟨hkey, hentry.mono hframe, hle⟩
  · obtain ⟨-, hkey, hentry⟩ := h.owned j hj id value hp
    exact ⟨hkey, hentry.mono hframe, Nat.le_sub_one_of_lt version.toNat_lt⟩

/-- A drawn id has at most a deletion pending under the record key. -/
def Clears (c : CrossShard) (n : Net) (id : Uuid) : Prop :=
  ∀ value, (n.view shardMeta (recordKey c.txn)).pending = some (id, value) → value = none

omit [TextParsers] in
theorem Clears.mono {n' : Net} (h : Clears c n id) (hid : id ∈ n.used)
    (hf : Frame c n n') : Clears c n' id :=
  fun value hp => h value (hf.pending id hid value hp)

theorem Sound.clear (h : Sound c n₀ n) (hid : id ∈ n.used) (hclears : Clears c n id)
    (hr : r.kv = (n.groups shardMeta).kv.commit id version.toNat) :
    Calm c n₀ n (n.set shardMeta r) := by
  have hrec : c.Recorded (n.set shardMeta r) → c.Recorded n := by
    rintro ⟨m, hm, hrec⟩
    rw [view_set_self, h.view_commit hr] at hm
    rcases KeyState.mem_commits_commit.mp hm with hm | ⟨value, hp, rfl⟩
    · exact ⟨m, hm, hrec⟩
    obtain ⟨_, hsome⟩ := hrec
    cases (hclears value hp).symm.trans hsome
  obtain ⟨hs, hf⟩ := h.commit hid hr fun hr' => h.intact (hrec hr')
  refine ⟨hs, hf, hrec, (h.foreign_commit hid hr).intact, fun u value hv hp => ?_⟩
  rw [view_set_self, h.view_commit hr, KeyState.commit_of_pending_ne hp, hp]
  rintro rfl
  obtain ⟨_, hsome⟩ := hv
  cases (hclears value hp).symm.trans hsome

theorem Sound.record (h : Sound c n₀ n) (hid : id ∈ n.used)
    (hintact : c.Intact n₀ n) (hv : c.IsRecord value)
    (hp : (n.view shardMeta (recordKey c.txn)).pending = some (id, value))
    (hr : r.kv = (n.groups shardMeta).kv.commit id version.toNat) :
    Sound c n₀ (n.set shardMeta r) ∧ Frame c n (n.set shardMeta r) ∧
      c.Recorded (n.set shardMeta r) := by
  obtain ⟨hs, hf⟩ := h.commit hid hr fun _ => hintact
  refine ⟨hs, hf, (MvccValue.intent id value).commitAt version.toNat, ?_, hv⟩
  rw [view_set_self, h.view_commit hr]
  exact KeyState.mem_commits_commit.mpr (.inr ⟨value, hp, rfl⟩)

end Effects

section Commands

variable [Hashes] [Serde] {c : CrossShard} {n n' : Net} {g : Bytes} {cmd : ShardCommand}
  {index : UInt64} {ok : Bool}

theorem submit_eq_some (h : n.submit g cmd index = some (n', ok)) :
    ∃ r response, (n.groups g).group.apply cmd index = .ok (r.group, response) ∧
      response.success = ok ∧ n' = n.set g r := by
  unfold submit at h
  split at h
  · cases h
  split at h
  next group response happly =>
    cases h
    exact ⟨⟨group, index.toNat + 1⟩, response, happly, rfl, rfl⟩
  · cases h

theorem submit_epochCommand (hwf : (n.groups g).kv.WF)
    (h : n.submit g (epochCommand enabled epoch mutation) index = some (n', ok)) :
    ∃ r, n' = n.set g r ∧
      ((ok = false ∧ r.kv = (n.groups g).kv) ∨
        (ok = true ∧ r.kv = EpochMutation.run (n.groups g).kv mutation ∧
          EpochMutation.Free (n.groups g).kv mutation)) := by
  obtain ⟨r, response, happly, rfl, rfl⟩ := submit_eq_some h
  exact ⟨r, rfl, Group.apply_epochCommand hwf happly⟩

theorem submit_prepareCommand (hwf : (n.groups g).kv.WF)
    (hcmd : c.prepareCommand enabled target = some cmd) (h : n.submit g cmd index = some (n', ok)) :
    ∃ r, n' = n.set g r ∧ r.kv = (n.groups g).kv := by
  unfold CrossShard.prepareCommand at hcmd
  split at hcmd
  · cases hcmd
    obtain ⟨r, response, happly, -, rfl⟩ := submit_eq_some h
    refine ⟨r, rfl, ?_⟩
    rcases Group.apply_untracked happly trivial with ⟨-, hkv⟩ | hx
    · exact hkv
    obtain ⟨kv', hw, hgroup⟩ := Group.withKv_eq_ok hx
    rw [Replica.kv, hgroup]
    exact (Migration.applyEpochPrepare_cases hw).1
  split at hcmd
  · cases hcmd
  cases hcmd
  obtain ⟨r, rfl, ⟨-, hkv⟩ | ⟨-, hkv, -⟩⟩ := submit_epochCommand hwf h
  all_goals exact ⟨r, rfl, hkv⟩

theorem submit_abortTxn {txn : Uuid} (h : n.submit g (.abortTxn txn false) index = some (n', ok)) :
    ∃ r, n' = n.set g r ∧
      (r.kv = (n.groups g).kv ∨ r.kv = (n.groups g).kv.abort txn) := by
  obtain ⟨r, response, happly, -, rfl⟩ := submit_eq_some h
  refine ⟨r, rfl, ?_⟩
  rcases Group.apply_untracked happly trivial with ⟨-, hkv⟩ | hx
  · exact .inl hkv
  right
  have heq : r.group = { (n.groups g).group with kv := (n.groups g).group.kv.abort txn } :=
    (congrArg Prod.fst (Except.ok.inj hx)).symm
  rw [Replica.kv, heq]
  rfl

end Commands

section Rejected

variable [TextParsers] {c : CrossShard} {n₀ n : Net} {g : Bytes} {r : Replica}

theorem Sound.rejected (h : Sound c n₀ n) (hname : c.Names (recordKey c.txn))
    (hr : r.kv = (n.groups g).kv) : Calm c n₀ n (n.set g r) := by
  refine h.other hname (hr ▸ Foreign.same (h.wf g)) fun _ j _ => ?_
  rw [hr]
  rfl

theorem Calm.refl (h : Sound c n₀ n) : Calm c n₀ n n :=
  ⟨h, .refl, fun hr => hr, fun hi => hi, fun _ _ _ hp => hp⟩

theorem Calm.draw (h : Sound c n₀ n) {id : Uuid} (hid : id ≠ c.txn) : Calm c n₀ n (n.draw id) :=
  ⟨h.draw hid, ⟨fun _ _ _ hm => hm, fun _ hu => List.mem_cons_of_mem _ hu, fun _ _ _ hp => hp⟩,
    fun hr => hr, fun hi => hi, fun _ _ _ hp => hp⟩

theorem Calm.trans (h : Calm c n₀ n n') (h' : Calm c n₀ n' n'') :
    Calm c n₀ n n'' where
  sound := h'.sound
  frame :=
    { commits := fun g j m hm => h'.frame.commits g j m (h.frame.commits g j m hm)
      used := fun _ hu => h'.frame.used (h.frame.used hu)
      pending := fun id hu value hp =>
        h.frame.pending id hu value (h'.frame.pending id (h.frame.used hu) value hp) }
  quiet :=
    { recorded := fun hr => h.quiet.recorded (h'.quiet.recorded hr)
      intact := fun hi => h'.quiet.intact (h.quiet.intact hi)
      intent := fun id value hv hp => h'.quiet.intent id value hv (h.quiet.intent id value hv hp) }

end Rejected

end Net

/-! ## The coordinator in a sound state -/

namespace Coord

/-- What holds of the coordinator in every state. -/
def Sound (c : CrossShard) (n₀ n : Net) : Coord → Prop
  | preparing _ => ¬ c.Recorded n ∧ c.Intact n₀ n
  | aborting _ => ¬ c.Recorded n
  | putting record => (∃ enabled, record = c.record enabled) ∧ ¬ c.Recorded n ∧ c.Intact n₀ n
  | recording record id _ =>
    (∃ enabled, record = c.record enabled) ∧ id ∈ n.used ∧ ¬ c.Recorded n ∧ c.Intact n₀ n ∧
      (n.view shardMeta (recordKey c.txn)).pending = some (id, some (.data record.encode))
  | driving rest => c.Recorded n ∧ ∀ g ∈ c.participants, g ∈ rest ∨ c.VisibleAt n₀ n g
  | deleting | done => c.Recorded n ∧ c.Visible n₀ n
  | clearing id _ => (c.Recorded n ∧ c.Visible n₀ n) ∧ id ∈ n.used ∧ Net.Clears c n id
  | failed => True

variable {c : CrossShard} {n₀ n n' : Net} {pc pc' : Coord} {turn : Turn}

theorem Sound.calm [TextParsers] (h : pc.Sound c n₀ n) (hcalm : Net.Calm c n₀ n n') :
    pc.Sound c n₀ n' := by
  have hnot : ¬ c.Recorded n → ¬ c.Recorded n' := fun hn hr => hn (hcalm.quiet.recorded hr)
  cases pc with
  | preparing rest => exact ⟨hnot h.1, hcalm.quiet.intact h.2⟩
  | aborting rest => exact hnot h
  | putting record => exact ⟨h.1, hnot h.2.1, hcalm.quiet.intact h.2.2⟩
  | recording record id epoch =>
    obtain ⟨hrecord, hid, hn, hi, hp⟩ := h
    obtain ⟨enabled, rfl⟩ := hrecord
    exact ⟨⟨enabled, rfl⟩, hcalm.frame.used hid, hnot hn, hcalm.quiet.intact hi,
      hcalm.quiet.intent id _ ⟨enabled, rfl⟩ hp⟩
  | driving rest =>
    refine ⟨h.1.mono hcalm.frame, fun g hg => ?_⟩
    rcases h.2 g hg with hrest | hv
    · exact .inl hrest
    · exact .inr (hv.mono hcalm.frame)
  | deleting | done => exact ⟨h.1.mono hcalm.frame, h.2.mono hcalm.frame⟩
  | clearing id epoch =>
    obtain ⟨⟨hr, hv⟩, hid, hclears⟩ := h
    exact ⟨⟨hr.mono hcalm.frame, hv.mono hcalm.frame⟩, hcalm.frame.used hid,
      hclears.mono hid hcalm.frame⟩
  | failed => trivial

theorem sound_error (h : pc.Sound c n₀ n) : (pc.error c).Sound c n₀ n := by
  cases pc with
  | preparing rest => exact h.1
  | aborting rest =>
    cases rest with
    | nil => trivial
    | cons g rest => exact h
  | _ => trivial

variable [Hashes] [Serde]

theorem send_eq_some (h : send n g cmd turn yes no = some (n', pc')) :
    ∃ ok, n.submit g cmd turn.index = some (n', ok) ∧ pc' = if ok then yes else no := by
  obtain ⟨⟨n₁, ok⟩, hsubmit, heq⟩ := Option.map_eq_some_iff.mp h
  cases heq
  exact ⟨ok, hsubmit, rfl⟩

variable [TextParsers]

omit [Hashes] [Serde] in
theorem step_of_calm (hcalm : Net.Calm c n₀ n n') (hpc : pc'.Sound c n₀ n') :
    Net.Sound c n₀ n' ∧ Net.Frame c n n' ∧ pc'.Sound c n₀ n' :=
  ⟨hcalm.sound, hcalm.frame, hpc⟩

theorem step_write (hs : Net.Sound c n₀ n) (hname : c.Names (recordKey c.txn))
    (hfresh : ¬ (turn.id ∈ n.used ∨ turn.id = c.txn)) (mutation : EpochMutationV1)
    (op : IntentOperation Raft.Value) (hkey : op.key = recordKey c.txn)
    (hvalue : c.Entry n₀ n op.value)
    (hrun : ∀ kv, EpochMutation.run kv mutation = kv.replayAll turn.id [op] 0)
    (hfree : ∀ kv, EpochMutation.Free kv mutation → ¬ (kv.view op.key).blocks turn.id) {yes : Coord}
    (hyes : ∀ n', Net.Calm c n₀ n n' → turn.id ∈ n'.used →
      (n'.view shardMeta (recordKey c.txn)).pending = some (turn.id, op.value) → yes.Sound c n₀ n')
    {enabled : Bool} {epoch : UInt64}
    (h : send (n.draw turn.id) shardMeta (epochCommand enabled epoch mutation) turn yes failed =
      some (n', pc')) : Net.Sound c n₀ n' ∧ Net.Frame c n n' ∧ pc'.Sound c n₀ n' := by
  rw [not_or] at hfresh
  obtain ⟨hfresh, hid⟩ := hfresh
  obtain ⟨ok, hsubmit, rfl⟩ := send_eq_some h
  obtain ⟨r, rfl, ⟨rfl, hr⟩ | ⟨rfl, hr, hf⟩⟩ :=
    Net.submit_epochCommand ((hs.draw hid).wf shardMeta) hsubmit
  · exact step_of_calm ((Net.Calm.draw hs hid).trans ((hs.draw hid).rejected hname hr)) trivial
  obtain ⟨hcalm, hp⟩ := hs.write hname hfresh hid op (fun _ => ⟨hkey, hvalue⟩) (hfree _ hf)
    (hr.trans (hrun _))
  exact step_of_calm hcalm (hyes _ hcalm List.mem_cons_self (hp hkey))

theorem Sound.step (hs : Net.Sound c n₀ n) (hname : c.Names (recordKey c.txn))
    (h : pc.Sound c n₀ n) (hnext : pc.next c n turn = some (n', pc')) :
    Net.Sound c n₀ n' ∧ Net.Frame c n n' ∧ pc'.Sound c n₀ n' := by
  have hrejected : ∀ {g : Bytes} {r : Replica}, r.kv = (n.groups g).kv →
      Net.Calm c n₀ n (n.set g r) := fun hr => hs.rejected hname hr
  have hhere : ∀ {q : Coord}, q.Sound c n₀ n →
      Net.Sound c n₀ n ∧ Net.Frame c n n ∧ q.Sound c n₀ n := fun hq => ⟨hs, .refl, hq⟩
  cases pc with
  | preparing rest =>
    cases rest with
    | nil =>
      cases hnext
      exact hhere ⟨⟨_, rfl⟩, h⟩
    | cons target rest =>
      obtain ⟨g, target⟩ := target
      simp only [next] at hnext
      split at hnext
      · cases hnext
        exact hhere h
      next cmd hcmd =>
      obtain ⟨ok, hsubmit, rfl⟩ := send_eq_some hnext
      obtain ⟨r, rfl, hr⟩ := Net.submit_prepareCommand (hs.wf g) hcmd hsubmit
      have hcalm := hrejected hr
      have hrest : (preparing rest).Sound c n₀ n := h
      have hkept := hrest.calm hcalm
      refine step_of_calm hcalm ?_
      cases ok with
      | true => exact hkept
      | false => exact hkept.1
  | aborting rest =>
    cases rest with
    | nil =>
      cases hnext
      exact hhere trivial
    | cons g rest =>
      obtain ⟨ok, hsubmit, rfl⟩ := send_eq_some hnext
      rw [ite_self]
      obtain ⟨r, rfl, hr | hr⟩ := Net.submit_abortTxn hsubmit
      · have hrest : (aborting rest).Sound c n₀ n := h
        exact step_of_calm (hrejected hr) (hrest.calm (hrejected hr))
      · exact hs.release hname h hr
  | putting record =>
    simp only [next] at hnext
    split at hnext
    · cases hnext
    next hfresh =>
    obtain ⟨⟨enabled, rfl⟩, hn, hi⟩ := h
    refine step_write hs hname hfresh (.put turn.id (recordKey c.txn) (c.record enabled).encode)
      (.put (recordKey c.txn) (.data (c.record enabled).encode)) rfl (.inr ⟨enabled, rfl⟩)
      (fun _ => rfl) (fun _ hf => hf) (fun n' hcalm hid hp => ?_) hnext
    exact ⟨⟨enabled, rfl⟩, hid, fun hr => hn (hcalm.quiet.recorded hr), hcalm.quiet.intact hi, hp⟩
  | recording record id epoch =>
    obtain ⟨ok, hsubmit, rfl⟩ := send_eq_some hnext
    obtain ⟨⟨enabled, rfl⟩, hid, -, hi, hp⟩ := h
    obtain ⟨r, rfl, ⟨rfl, hr⟩ | ⟨rfl, hr, -⟩⟩ := Net.submit_epochCommand (hs.wf shardMeta) hsubmit
    · exact step_of_calm (hrejected hr) trivial
    obtain ⟨hs', hf, hrec⟩ := hs.record hid hi ⟨enabled, rfl⟩ hp hr
    exact ⟨hs', hf, hrec, fun g hg => .inl hg⟩
  | driving rest =>
    cases rest with
    | nil =>
      cases hnext
      refine hhere ⟨h.1, fun g hg => (h.2 g hg).resolve_left nofun⟩
    | cons g rest =>
      obtain ⟨ok, hsubmit, rfl⟩ := send_eq_some hnext
      obtain ⟨r, rfl, ⟨rfl, hr⟩ | ⟨rfl, hr, -⟩⟩ := Net.submit_epochCommand (hs.wf g) hsubmit
      · exact step_of_calm (hrejected hr) trivial
      obtain ⟨hcalm, hvisible⟩ := hs.drive hname h.1 hr
      refine step_of_calm hcalm ⟨h.1.mono hcalm.frame, fun g' hg' => ?_⟩
      rcases h.2 g' hg' with hmem | hv
      · rcases List.mem_cons.mp hmem with rfl | hmem
        · exact .inr hvisible
        · exact .inl hmem
      · exact .inr (hv.mono hcalm.frame)
  | deleting =>
    simp only [next] at hnext
    split at hnext
    · cases hnext
    next hfresh =>
    refine step_write hs hname hfresh (.delete turn.id (recordKey c.txn))
      (.delete (recordKey c.txn)) rfl (.inl ⟨rfl, h.2⟩)
      (fun _ => rfl) (fun _ hf => hf) (fun n' hcalm hid hp => ?_) hnext
    refine ⟨⟨h.1.mono hcalm.frame, h.2.mono hcalm.frame⟩, hid, fun value hp' => ?_⟩
    rw [hp] at hp'
    cases hp'
    rfl
  | clearing id epoch =>
    obtain ⟨ok, hsubmit, rfl⟩ := send_eq_some hnext
    obtain ⟨⟨hrec, hv⟩, hid, hclears⟩ := h
    obtain ⟨r, rfl, ⟨rfl, hr⟩ | ⟨rfl, hr, -⟩⟩ := Net.submit_epochCommand (hs.wf shardMeta) hsubmit
    · exact step_of_calm (hrejected hr) trivial
    have hcalm := hs.clear hid hclears hr
    exact step_of_calm hcalm ⟨hrec.mono hcalm.frame, hv.mono hcalm.frame⟩
  | done => cases hnext
  | failed => cases hnext

end Coord

end NodusDb
