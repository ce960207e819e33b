import NodusDb.Backup.Pitr
import NodusDb.Lsm.WholeLog
import NodusDb.Raft.Replica

/-!
# Replaying the log to a point in time

The archive has every record the source appended, also the writes it rejected: a write is logged
before its conflict check. The replay runs the records through the checked interface of the
destination and stops at the first conflict.

* `pitr_replay_reproduces`: without rejected writes the destination reads as the source does.
* `pitr_replay_fails`: the two ways in which it does not.
-/

namespace NodusDb

open MemKvEngine List KeyState

namespace KeyState

variable {V : Type} {s : KeyState V} {txnId : TxnId}

/-- What committing adds to a key with this pending write. -/
def committedBy (pending : Option (TxnId × Option V)) (txnId : TxnId) (commitTs : Nat) :
    List (MvccValue V) :=
  match pending with
  | some (o, value) => if o = txnId then [(MvccValue.intent txnId value).commitAt commitTs] else []
  | none => []

theorem commits_commit (commitTs : Nat) :
    (s.commit txnId commitTs).commits = s.commits ++ committedBy s.pending txnId commitTs := by
  unfold commit committedBy
  cases s.pending with
  | none => exact (append_nil _).symm
  | some p =>
    show (if p.1 = txnId then s.addCommit txnId p.2 commitTs else s).commits =
      s.commits ++ if p.1 = txnId then [(MvccValue.intent txnId p.2).commitAt commitTs] else []
    split
    · rfl
    · exact (append_nil _).symm

theorem version_of_mem_committedBy {pending : Option (TxnId × Option V)} {commitTs : Nat}
    {e : MvccValue V} (h : e ∈ committedBy pending txnId commitTs) : e.version = commitTs := by
  unfold committedBy at h
  split at h
  · split at h
    · rw [mem_singleton.mp h]
      rfl
    · cases h
  · cases h

theorem pending_commit (commitTs : Nat) :
    (s.commit txnId commitTs).pending = (s.abort txnId).pending := by
  unfold commit abort owner
  cases hp : s.pending with
  | none => simp [hp]
  | some p =>
    show (if p.1 = txnId then s.addCommit txnId p.2 commitTs else s).pending =
      (if some p.1 = some txnId then s.setPending none else s).pending
    by_cases h : p.1 = txnId
    · rw [if_pos h, if_pos (congrArg some h)]
      rfl
    · rw [if_neg h, if_neg fun he => h (Option.some.inj he)]

theorem pending_abort_congr {a b : KeyState V} (h : a.pending = b.pending) :
    (a.abort txnId).pending = (b.abort txnId).pending := by
  unfold abort
  rw [owner_congr h]
  split
  · rfl
  · exact h

end KeyState

namespace VersionChain

variable {V : Type} {c d : VersionChain V} {readTs : Nat}

/-- Reads see versions and values: two chains that have the same ones up to the read
timestamp read alike. -/
theorem read_congr
    (hvalue : ∀ a ∈ c.commitSet, ∀ b ∈ d.commitSet, a.version = b.version → a.value = b.value)
    (hcd : ∀ a ∈ c.commitSet, a.version ≤ readTs → ∃ b ∈ d.commitSet, b.version = a.version)
    (hdc : ∀ b ∈ d.commitSet, b.version ≤ readTs → ∃ a ∈ c.commitSet, a.version = b.version) :
    c.read readTs = d.read readTs := by
  rw [read_eq, read_eq]
  cases hc : c.newestVisible readTs with
  | none =>
    have hnone : d.newestVisible readTs = none := by
      refine newestVisible_eq_none.mpr fun b hb hle => ?_
      obtain ⟨a, ha, hver⟩ := hdc b hb hle
      exact newestVisible_eq_none.mp hc a ha (hver ▸ hle)
    rw [hnone]
  | some v =>
    obtain ⟨hv, hle, hmax⟩ := isNewest_of_newestVisible hc
    cases hd : d.newestVisible readTs with
    | none =>
      obtain ⟨b, hb, hver⟩ := hcd v hv hle
      exact absurd (hver ▸ hle) (newestVisible_eq_none.mp hd b hb)
    | some w =>
      obtain ⟨hw, hle', hmax'⟩ := isNewest_of_newestVisible hd
      have hsame : v.version = w.version := by
        obtain ⟨b, hb, hbv⟩ := hcd v hv hle
        obtain ⟨a, ha, haw⟩ := hdc w hw hle'
        refine le_antisymm ?_ ?_
        · exact hbv ▸ hmax' b hb (hbv ▸ hle)
        · exact haw ▸ hmax a ha (haw ▸ hle')
      exact hvalue v hv w hw hsame

end VersionChain

namespace BackupOrchestrator

open Lsm (Mutation Op WalRecord mutateTable logged)

/-! ## The records of a call -/

/-- The destination after the records of a source whose reference is `m`, from the
engine `kv₀` on. -/
structure Follows (targetTs : Nat) (kv₀ m : MemKvEngine Bytes) (st : ReplayState) : Prop where
  wf : st.kv.WF
  pending : ∀ k, isBackupExcludedKey k = false → (st.kv.view k).pending = (m.view k).pending
  commits : ∀ k, isBackupExcludedKey k = false → (st.kv.view k).commits =
    (kv₀.view k).commits ++ (m.view k).commits.filter fun e => decide (e.version ≤ targetTs)
  out : ∀ k, isBackupExcludedKey k = true → (st.kv.view k).pending = none
  active : ∀ txnId, st.kv.keysOf txnId ≠ [] → txnId ∈ st.activeTxns

section Steps

variable {targetTs now : Nat} {kv₀ m : MemKvEngine Bytes} {st : ReplayState}

section

variable (h : Follows targetTs kv₀ m st)
include h

theorem Follows.congr {st' : ReplayState} (hkv : st'.kv = st.kv)
    (hactive : st'.activeTxns = st.activeTxns) : Follows targetTs kv₀ m st' := by
  obtain ⟨kv, activeTxns, report⟩ := st'
  obtain rfl : kv = st.kv := hkv
  obtain rfl : activeTxns = st.activeTxns := hactive
  exact ⟨h.wf, h.pending, h.commits, h.out, h.active⟩

theorem Follows.seen : Follows targetTs kv₀ m
    { st with report := { st.report with recordsSeen := st.report.recordsSeen + 1 } } :=
  h.congr rfl rfl

theorem Follows.write (hm : m.WF) {key : Bytes} {value : Option Bytes}
    (hkey : isBackupExcludedKey key = false) (hfree : ¬ (m.view key).blocks txnId) :
    writeKv st.kv txnId key value now = .ok (st.kv.replayIntent txnId key value now) ∧
      Follows targetTs kv₀ (m.replayIntent txnId key value now')
        ⟨st.kv.replayIntent txnId key value now, st.activeTxns.insert txnId, st.report⟩ := by
  have hfree' : ¬ (st.kv.view key).blocks txnId :=
    mt (blocks_congr (h.pending key hkey) txnId).mp hfree
  refine ⟨?_, h.wf.replayIntent, fun k hk => ?_, fun k hk => ?_, fun k hk => ?_, fun u hu => ?_⟩
  · rw [writeKv, Table.writeIntentImpl_eq_replay h.wf hfree']
    rfl
  · rw [Table.view_replayIntent h.wf, Table.view_replayIntent hm]
    split
    · rw [KeyState.write, if_neg hfree', KeyState.write, if_neg hfree]
      rfl
    · exact h.pending k hk
  · rw [Table.view_replayIntent h.wf, Table.view_replayIntent hm]
    split
    next heq =>
      rw [KeyState.write, if_neg hfree', KeyState.write, if_neg hfree]
      exact heq ▸ h.commits k hk
    · exact h.commits k hk
  · rw [Table.view_replayIntent h.wf]
    split
    next heq =>
      rw [heq, hkey] at hk
      cases hk
    · exact h.out k hk
  · show u ∈ st.activeTxns.insert txnId
    rw [mem_insert_iff]
    rw [Table.keysOf_replayIntent h.wf] at hu
    split at hu
    next heq => exact .inl heq
    · exact .inr (h.active u hu)

theorem Follows.skip (hm : m.WF) {key : Bytes} {value : Option Bytes}
    (hkey : isBackupExcludedKey key = true) :
    Follows targetTs kv₀ (m.replayIntent txnId key value now) st := by
  have hview : ∀ k, isBackupExcludedKey k = false →
      (m.replayIntent txnId key value now).view k = m.view k := by
    intro k hk
    rw [Table.view_replayIntent hm, if_neg]
    rintro rfl
    rw [hkey] at hk
    cases hk
  refine ⟨h.wf, fun k hk => ?_, fun k hk => ?_, h.out, h.active⟩
  · rw [hview k hk]
    exact h.pending k hk
  · rw [hview k hk]
    exact h.commits k hk

theorem Follows.of_abort {m' : MemKvEngine Bytes} {txnId : TxnId} (report : PitrReplayReport)
    (hpending : ∀ k, (m'.view k).pending = ((m.view k).abort txnId).pending)
    (hcommits : ∀ k, ((m'.view k).commits.filter fun e => decide (e.version ≤ targetTs)) = (m.view
      k).commits.filter fun e => decide (e.version ≤ targetTs)) :
    Follows targetTs kv₀ m'
      ⟨st.kv.abort txnId, st.activeTxns.filter (· ≠ txnId), report⟩ := by
  refine ⟨h.wf.abort, fun k hk => ?_, fun k hk => ?_, fun k hk => ?_, fun u hu => ?_⟩
  · rw [Table.view_abort h.wf, hpending, pending_abort_congr (h.pending k hk)]
  · rw [Table.view_abort h.wf, commits_abort, hcommits]
    exact h.commits k hk
  · rw [Table.view_abort h.wf]
    exact pending_abort_of_pending (h.out k hk)
  · rw [Table.keysOf_abort] at hu
    split at hu
    · exact absurd rfl hu
    next hne => exact mem_filter.mpr ⟨h.active u hu, decide_eq_true hne⟩

theorem Follows.commit (hm : m.WF) (c : TxnId × Nat) :
    Follows targetTs kv₀ (m.commit c.1 c.2) (replayCommit targetTs st c) := by
  unfold replayCommit
  simp only
  split
  next hle =>
    refine ⟨h.wf.commit c.2, fun k hk => ?_, fun k hk => ?_, fun k hk => ?_, fun u hu => ?_⟩
    · rw [Table.view_commit h.wf, Table.view_commit hm, pending_commit,
        pending_commit, pending_abort_congr (h.pending k hk)]
    · rw [Table.view_commit h.wf, Table.view_commit hm, commits_commit,
        commits_commit, h.pending k hk, h.commits k hk, filter_append,
        append_assoc]
      congr 2
      refine (filter_eq_self.mpr fun e he => ?_).symm
      exact decide_eq_true ((version_of_mem_committedBy he).trans_le hle)
    · rw [Table.view_commit h.wf, pending_commit]
      exact pending_abort_of_pending (h.out k hk)
    · rw [Table.keysOf_commit] at hu
      split at hu
      · exact absurd rfl hu
      next hne => exact mem_filter.mpr ⟨h.active u hu, decide_eq_true hne⟩
  next hgt =>
    refine h.of_abort _ (fun k => ?_) fun k => ?_
    · rw [Table.view_commit hm, pending_commit]
    rw [Table.view_commit hm, commits_commit, filter_append]
    refine append_right_eq_self.mpr (filter_eq_nil_iff.mpr fun e he hle => hgt ?_)
    exact version_of_mem_committedBy he ▸ of_decide_eq_true hle

theorem Follows.commits_list (hm : m.WF) (commits : List (TxnId × Nat)) :
    Follows targetTs kv₀ (m.commitBatch commits) (commits.foldl (replayCommit targetTs) st) := by
  induction commits generalizing m st with
  | nil => exact h
  | cons c commits ih => exact ih (h.commit hm c) (hm.commit c.2)

theorem Follows.abort (hm : m.WF) (txnId : TxnId) (report : PitrReplayReport) :
    Follows targetTs kv₀ (m.abort txnId)
      ⟨st.kv.abort txnId, st.activeTxns.filter (· ≠ txnId), report⟩ := by
  refine h.of_abort report (fun k => ?_) fun k => ?_
  · rw [Table.view_abort hm]
  · rw [Table.view_abort hm, commits_abort]

theorem Follows.headers {records : List WalRecord} (hheaders : ∀ r ∈ records, r.isHeader = true) :
    ∃ st', records.foldlM (replayRecord targetTs now) st = .ok st' ∧
      Follows targetTs kv₀ m st' := by
  induction records generalizing st with
  | nil => exact ⟨st, rfl, h⟩
  | cons r records ih =>
    have hr := hheaders r mem_cons_self
    cases r with
    | segmentHeader predecessor =>
      exact ih h.seen fun r hr => hheaders r (mem_cons_of_mem _ hr)
    | _ => cases hr

end

end Steps

/-- The condition on the source: a write does not meet the pending write of another
transaction, unless its key is left out. -/
def Accepted (s : Lsm.LsmKvEngine) : Op → Prop
  | .mutate (.writeIntent txnId key _ _) | .mutate (.deleteIntent txnId key _) =>
    isBackupExcludedKey key = true ∨ ¬ (s.table.view key).blocks txnId
  | _ => True

instance (s : Lsm.LsmKvEngine) (op : Op) : Decidable (Accepted s op) := by
  unfold Accepted
  split <;> infer_instance

section Calls

variable {targetTs now : Nat} {kv₀ m : MemKvEngine Bytes} {st : ReplayState}
  {s : Lsm.LsmKvEngine}

theorem Follows.intent (h : Follows targetTs kv₀ m st) (hm : m.WF) (hsame : s.table.SamePending m)
    {txnId : TxnId} {key : Bytes} (value : Option Bytes) (now' : Nat)
    (hok : isBackupExcludedKey key = true ∨ ¬ (s.table.view key).blocks txnId)
    {record : WalRecord} {skipped written : PitrReplayReport}
    (hrecord : replayRecord targetTs now st record =
      if isBackupExcludedKey key then pure { st with report := skipped }
      else do
        let kv ← writeKv st.kv txnId key value now
        pure ⟨kv, st.activeTxns.insert txnId, written⟩) :
    ∃ st', [record].foldlM (replayRecord targetTs now) st = .ok st' ∧ Follows targetTs kv₀
      (if (m.view key).blocks txnId then m else m.replayIntent txnId key value now') st' := by
  rw [foldlM_cons, hrecord]
  cases hkey : isBackupExcludedKey key with
  | true =>
    refine ⟨_, rfl, ?_⟩
    split
    · exact h.congr rfl rfl
    · exact (h.skip hm hkey).congr rfl rfl
  | false =>
    rw [hkey] at hok
    have hfree : ¬ (m.view key).blocks txnId :=
      mt (blocks_congr (hsame key) txnId).mpr (hok.resolve_left Bool.false_ne_true)
    obtain ⟨hwrite, hf⟩ := h.write hm hkey hfree
    rw [if_neg hfree, if_neg Bool.false_ne_true, hwrite]
    exact ⟨_, rfl, hf.congr rfl rfl⟩

theorem follows_logged (h : Follows targetTs kv₀ m st) (hm : m.WF) (hsame : s.table.SamePending m)
    {op : Op} (hop : op.isPlain = true) (hok : Accepted s op) :
    ∃ st', (s.loggedBy op).foldlM (replayRecord targetTs now) st = .ok st' ∧
      Follows targetTs kv₀ (Lsm.refApply m op) st' := by
  cases op with
  | mutate mu =>
    cases mu with
    | writeIntent txnId key value now' =>
      show ∃ st', _ ∧ Follows targetTs kv₀ (mutateTable m (.writeIntent txnId key value now')) st'
      rw [Lsm.mutateTable_writeIntent hm]
      exact h.intent hm hsame (some value) now' hok rfl
    | deleteIntent txnId key now' =>
      show ∃ st', _ ∧ Follows targetTs kv₀ (mutateTable m (.deleteIntent txnId key now')) st'
      rw [Lsm.mutateTable_deleteIntent hm]
      exact h.intent hm hsame none now' hok rfl
    | commit txnId commitTs =>
      exact ⟨_, rfl, h.seen.commit hm (txnId, commitTs)⟩
    | commitBatch commits =>
      cases commits with
      | nil => exact ⟨st, rfl, h⟩
      | cons c commits => exact ⟨_, rfl, h.seen.commits_list hm (c :: commits)⟩
    | abort txnId => exact ⟨_, rfl, h.abort hm txnId _⟩
    | writeIntentBatch => cases hop
    | replaceIntent => cases hop
  | flush | compact | setFlushThreshold bytes => exact ⟨st, rfl, h⟩
  | garbageCollect watermark => cases hop
  | reopen now' => cases hop

end Calls

section Runs

theorem isReplace_of_isPlain {op : Op} (h : op.isPlain = true) :
    op.isReplace = false ∧ op.watermark = 0 := by
  cases op with
  | mutate mu =>
    cases mu with
    | replaceIntent => cases h
    | _ => exact ⟨rfl, rfl⟩
  | garbageCollect => cases h
  | _ => exact ⟨rfl, rfl⟩

theorem reference_snoc (ops : List Op) (op : Op) :
    Lsm.reference (ops ++ [op]) = Lsm.refApply (Lsm.reference ops) op := by
  rw [Lsm.reference, foldl_append]
  rfl

theorem wf_reference (ops : List Op) : (Lsm.reference ops).WF := by
  induction ops using reverseRecOn with
  | nil => exact Table.wf_empty
  | append_singleton ops op ih =>
    rw [reference_snoc]
    exact Lsm.wf_refApply ih op

variable [ChainCodec]

abbrev AcceptedRun : Lsm.LsmKvEngine → List Op → Lsm.LsmKvEngine → Prop :=
  Run (Guarded (fun s op t => op.isPlain = true ∧ s.apply op = some t) Accepted)

/-- What holds between the source, its reference and the replay of its log. -/
structure Tracked (s : Lsm.LsmKvEngine) (ops : List Op) : Prop where
  inv : ∃ layers segs, Lsm.Inv s (Lsm.reference ops) 0 false layers segs
  last : s.LastActive
  replay : ∀ (targetTs now : Nat) {kv₀ : MemKvEngine Bytes} {st : ReplayState},
    Follows targetTs kv₀ .empty st → ∃ st',
      s.walRecords.foldlM (replayRecord targetTs now) st = .ok st' ∧
      Follows targetTs kv₀ (Lsm.reference ops) st'

theorem Tracked.step {ops : List Op} (h : Tracked s ops) (hop : op.isPlain = true)
    (hok : Accepted s op) (happly : s.apply op = some t)
    (hinc : Lsm.Increasing (Lsm.reference (ops ++ [op]))) : Tracked t (ops ++ [op]) := by
  obtain ⟨layers, segs, hinv⟩ := h.inv
  rw [reference_snoc] at hinc
  obtain ⟨hreplace, hwatermark⟩ := isReplace_of_isPlain hop
  -- The engine beside its reference.
  let traced : Lsm.Traced := ⟨s, Lsm.reference ops, 0, false⟩
  have hready : traced.Replayable op := by
    cases op with
    | reopen => rfl
    | _ => trivial
  obtain ⟨traced', happly', ⟨layers', segs', hinv'⟩, href⟩ :=
    Lsm.Traced.Ok.apply (t := traced) ⟨layers, segs, hinv⟩ hinc hready
  obtain ⟨hu, hw, hengine⟩ := Lsm.Traced.apply_logged happly' hreplace rfl
  have hsame : traced'.engine = t := Option.some.inj (hengine.symm.trans happly)
  rw [hwatermark] at hw
  have hw' : traced'.watermark = 0 := hw
  obtain ⟨hlast, headers, hheaders, hrecords⟩ :=
    Lsm.LsmKvEngine.apply_walRecords hop h.last hinv.disk happly
  refine ⟨⟨layers', segs', ?_⟩, hlast, fun targetTs now kv₀ st hfollows => ?_⟩
  · rw [hsame, href, hw', hu] at hinv'
    rw [reference_snoc]
    exact hinv'
  obtain ⟨st₁, hst₁, hf₁⟩ := h.replay targetTs now hfollows
  obtain ⟨st₂, hst₂, hf₂⟩ := follows_logged hf₁ hinv.ref hinv.live.pending hop hok
  obtain ⟨st₃, hst₃, hf₃⟩ := hf₂.headers hheaders
  refine ⟨st₃, ?_, by rw [reference_snoc]; exact hf₃⟩
  rw [hrecords, foldlM_append, foldlM_append, hst₁]
  show ((s.loggedBy op).foldlM _ st₁ >>= fun st => headers.foldlM _ st) = _
  rw [hst₂]
  exact hst₃

theorem tracked_of_run {ops : List Op} (h : AcceptedRun .fresh ops s)
    (hinc : Lsm.Increasing (Lsm.reference ops)) : Tracked s ops := by
  generalize hstart : Lsm.LsmKvEngine.fresh = start at h
  induction h with
  | nil =>
    subst hstart
    exact ⟨⟨_, _, Lsm.inv_fresh⟩, Lsm.LsmKvEngine.lastActive_fresh, fun _ _ _ _ hf => ⟨_, rfl, hf⟩⟩
  | @snoc t u as a _ ha ih =>
    have hinc' : Lsm.Increasing (Lsm.reference as) := by
      rw [reference_snoc] at hinc
      exact hinc.of_refApply (wf_reference as)
    obtain ⟨hok, hop, happly⟩ := ha
    exact (ih hinc').step hop hok happly hinc

end Runs

/-! ## The base dump -/

def DumpRow.restores (row : DumpRow) : Option (Bytes × Option Bytes × Nat) :=
  match row.key, row.version with
  | some key, some version =>
    if isBackupExcludedKey key then none
    else if row.deleted.getD false then some (key, none, version)
    else row.value.map fun value => (key, some value, version)
  | _, _ => none

/-- The rows of the objects, if they can all be read. -/
def dumpRows [DumpReader] : List BackupObject → Option (List DumpRow)
  | [] => some []
  | object :: objects =>
    if isRows object.name then do
      let rows ← DumpReader.parseDump object.bytes
      let rest ← dumpRows objects
      pure (rows ++ rest)
    else dumpRows objects

/-- An engine that has the versions of these rows and nothing else. -/
structure Dumped (kv : MemKvEngine Bytes) (rows : List DumpRow) : Prop where
  wf : kv.WF
  idle : ∀ k, (kv.view k).pending = none
  keys : ∀ txnId, kv.keysOf txnId = []
  versions : ∀ k value version, (∃ e ∈ (kv.view k).commits, e.value = value ∧ e.version = version) ↔
    ∃ row ∈ rows, row.restores = some (k, value, version)

theorem dumped_empty : Dumped .empty [] :=
  ⟨Table.wf_empty, fun _ => rfl, fun _ => rfl, fun _ _ _ =>
    iff_of_false (by rintro ⟨_, he, _⟩; cases he) (by simp)⟩

section Dump

variable (newTxnId : Nat → TxnId) (now : Nat) {st : RestoreState} {rows : List DumpRow}

theorem Dumped.skip {kv : MemKvEngine Bytes} (h : Dumped kv rows) (hrow : row.restores = none) :
    Dumped kv (rows ++ [row]) := by
  refine ⟨h.wf, h.idle, h.keys, fun k value version => ?_⟩
  rw [h.versions]
  constructor
  · rintro ⟨r, hr, hrestores⟩
    exact ⟨r, mem_append_left _ hr, hrestores⟩
  · rintro ⟨r, hr, hrestores⟩
    rcases mem_append.mp hr with hr | hr
    · exact ⟨r, hr, hrestores⟩
    rw [mem_singleton.mp hr, hrow] at hrestores
    cases hrestores

theorem Dumped.after_version (h : Dumped st.kv rows) {key : Bytes} {value : Option Bytes}
    {version : Nat} (hrow : row.restores = some (key, value, version)) :
    ∃ st', restoreVersion newTxnId now st key value version = .ok st' ∧
      Dumped st'.kv (rows ++ [row]) := by
  have hfree : ¬ (st.kv.view key).blocks (newTxnId st.drawn) := fun hb =>
    hb.1 (by rw [owner, h.idle key]; rfl)
  have hwf : (st.kv.replayIntent (newTxnId st.drawn) key value now).WF := h.wf.replayIntent
  have hview : ∀ k, ((st.kv.replayIntent (newTxnId st.drawn) key value now).commit
      (newTxnId st.drawn) version).view k =
        if k = key then (st.kv.view key).addCommit (newTxnId st.drawn) value version
        else st.kv.view k := by
    intro k
    rw [Table.view_commit hwf, Table.view_replayIntent h.wf]
    split
    · rw [write, if_neg hfree, commit]
      exact if_pos rfl
    · rw [commit, h.idle k]
  refine ⟨⟨(st.kv.replayIntent (newTxnId st.drawn) key value now).commit (newTxnId st.drawn)
    version,
    st.drawn + 1, { st.report with
      baseKvVersionsRestored := st.report.baseKvVersionsRestored + 1 }⟩, ?_, hwf.commit version,
    fun k => ?_, fun u => ?_, fun k v ver => ?_⟩
  · rw [restoreVersion, writeKv, Table.writeIntentImpl_eq_replay h.wf hfree]
    rfl
  · rw [hview k]
    split
    · rfl
    · exact h.idle k
  · rw [Table.keysOf_commit, Table.keysOf_replayIntent h.wf]
    split
    · rfl
    · exact h.keys u
  · rw [hview k]
    simp only [mem_append, mem_singleton]
    constructor
    · rintro ⟨e, he, rfl, rfl⟩
      split at he
      next heq =>
        rcases mem_append.mp he with he | he
        · obtain ⟨r, hr, hrestores⟩ := (h.versions key e.value e.version).mp ⟨e, he, rfl, rfl⟩
          exact ⟨r, .inl hr, heq ▸ hrestores⟩
        · rw [mem_singleton.mp he, heq]
          exact ⟨row, .inr rfl, hrow⟩
      · obtain ⟨r, hr, hrestores⟩ := (h.versions k e.value e.version).mp ⟨e, he, rfl, rfl⟩
        exact ⟨r, .inl hr, hrestores⟩
    · rintro ⟨r, hr | rfl, hrestores⟩
      · obtain ⟨e, he, hvalue, hversion⟩ := (h.versions k v ver).mpr ⟨r, hr, hrestores⟩
        refine ⟨e, ?_, hvalue, hversion⟩
        split
        next heq => exact mem_append_left _ (heq ▸ he)
        · exact he
      · rw [hrow] at hrestores
        cases hrestores
        rw [if_pos rfl]
        exact ⟨_, mem_append_right _ (mem_singleton.mpr rfl), rfl, rfl⟩

theorem Dumped.after_row (h : Dumped st.kv rows) (row : DumpRow) :
    ∃ st', restoreRow newTxnId now st row = .ok st' ∧ Dumped st'.kv (rows ++ [row]) := by
  obtain ⟨key, version, deleted, value⟩ := row
  unfold restoreRow
  cases key with
  | none => exact ⟨st, rfl, h.skip rfl⟩
  | some key =>
    simp only
    split
    next hkey =>
      refine ⟨st, rfl, h.skip ?_⟩
      cases version with
      | none => rfl
      | some version => exact if_pos hkey
    next hkey =>
    cases version with
    | none => exact ⟨st, rfl, h.skip rfl⟩
    | some version =>
      simp only
      split
      next hdeleted =>
        exact h.after_version newTxnId now ((if_neg hkey).trans (if_pos hdeleted))
      next hdeleted =>
      have hrow : DumpRow.restores ⟨some key, some version, deleted, value⟩ =
          value.map fun value => (key, some value, version) :=
        (if_neg hkey).trans (if_neg hdeleted)
      cases value with
      | none => exact ⟨{ st with drawn := st.drawn + 1 }, rfl, h.skip hrow⟩
      | some value => exact h.after_version newTxnId now hrow

theorem Dumped.after_rows (h : Dumped st.kv rows) (more : List DumpRow) :
    ∃ st', more.foldlM (restoreRow newTxnId now) st = .ok st' ∧ Dumped st'.kv (rows ++ more) := by
  induction more generalizing st rows with
  | nil => exact ⟨st, rfl, by rwa [append_nil]⟩
  | cons row more ih =>
    obtain ⟨st₁, hst₁, h₁⟩ := h.after_row newTxnId now row
    obtain ⟨st₂, hst₂, h₂⟩ := ih h₁
    refine ⟨st₂, ?_, by rwa [append_assoc] at h₂⟩
    rw [foldlM_cons, hst₁]
    exact hst₂

variable [DumpReader]

theorem Dumped.after_objects (h : Dumped st.kv rows) (hmore : dumpRows objects = some more) :
    ∃ st', objects.foldlM (restoreObject newTxnId now) st = .ok st' ∧
      Dumped st'.kv (rows ++ more) := by
  induction objects generalizing st rows more with
  | nil =>
    cases hmore
    exact ⟨st, rfl, by rwa [append_nil]⟩
  | cons object objects ih =>
    rw [dumpRows] at hmore
    rw [foldlM_cons, restoreObject]
    split at hmore
    next hrows =>
      rw [if_pos hrows]
      obtain ⟨own, hown, hmore⟩ := Option.bind_eq_some_iff.mp hmore
      obtain ⟨rest, hrest, hmore⟩ := Option.bind_eq_some_iff.mp hmore
      cases hmore
      obtain ⟨st₁, hst₁, h₁⟩ := h.after_rows newTxnId now own
      obtain ⟨st₂, hst₂, h₂⟩ := ih h₁ hrest
      refine ⟨st₂, ?_, by rwa [append_assoc] at h₂⟩
      rw [hown]
      show (own.foldlM (restoreRow newTxnId now) st >>= _) = _
      rw [hst₁]
      exact hst₂
    next hrows =>
      rw [if_neg hrows]
      exact ih h hmore

theorem restore_dumped (hrows : dumpRows objects = some rows) :
    ∃ st, restoreBackupObjectsToKv newTxnId now objects .empty = .ok st ∧ Dumped st.kv rows := by
  have hempty : Dumped (RestoreState.mk .empty 0 { baseObjectsRestored := objects.length }).kv [] :=
    dumped_empty
  exact hempty.after_objects newTxnId now hrows

end Dump

section Segments

variable {targetTs now : Nat} {a b a' : ReplayState}

/-- The same engine and open transactions, whatever was counted. -/
def ReplayState.Same (a b : ReplayState) : Prop := a.kv = b.kv ∧ a.activeTxns = b.activeTxns

theorem replayCommit_same (h : a.Same b) (c : TxnId × Nat) :
    (replayCommit targetTs a c).Same (replayCommit targetTs b c) := by
  unfold replayCommit
  simp only [h.1, h.2]
  split <;> exact ⟨rfl, rfl⟩

theorem replayRecord_same (h : a.Same b) {record : WalRecord}
    (ha : replayRecord targetTs now a record = .ok a') :
    ∃ b', replayRecord targetTs now b record = .ok b' ∧ a'.Same b' := by
  have hcommits : ∀ (commits : List (TxnId × Nat)) (a b : ReplayState), a.Same b →
      (commits.foldl (replayCommit targetTs) a).Same (commits.foldl (replayCommit targetTs) b) := by
    intro commits
    induction commits with
    | nil => exact fun a b h => h
    | cons c commits ih => exact fun a b h => ih _ _ (replayCommit_same h c)
  obtain ⟨kv, activeTxns, report⟩ := a
  obtain ⟨kv', activeTxns', report'⟩ := b
  obtain ⟨hkv, hactive⟩ := h
  subst hkv hactive
  cases record with
  | writeIntent | deleteIntent =>
    unfold replayRecord at ha ⊢
    simp only at ha ⊢
    split at ha
    next hkey =>
      cases ha
      exact ⟨_, if_pos hkey, rfl, rfl⟩
    next hkey =>
    obtain ⟨kv', hwrite, ha⟩ := Result.bind_eq_ok.mp ha
    cases ha
    rw [if_neg hkey, hwrite]
    exact ⟨_, rfl, rfl, rfl⟩
  | commitTxn txnId commitTs =>
    cases ha
    refine ⟨_, rfl, replayCommit_same ?_ _⟩
    exact ⟨rfl, rfl⟩
  | commitTxnBatchV1 commits =>
    cases ha
    refine ⟨_, rfl, hcommits commits _ _ ?_⟩
    exact ⟨rfl, rfl⟩
  | _ =>
    cases ha
    exact ⟨_, rfl, rfl, rfl⟩

theorem replayRecords_same (h : a.Same b) {records : List WalRecord}
    (ha : records.foldlM (replayRecord targetTs now) a = .ok a') :
    ∃ b', records.foldlM (replayRecord targetTs now) b = .ok b' ∧ a'.Same b' := by
  induction records generalizing a b with
  | nil =>
    cases ha
    exact ⟨b, rfl, h⟩
  | cons record records ih =>
    rw [foldlM_cons] at ha ⊢
    obtain ⟨a₁, ha₁, ha⟩ := Result.bind_eq_ok.mp ha
    obtain ⟨b₁, hb₁, h₁⟩ := replayRecord_same h ha₁
    obtain ⟨b', hb', h'⟩ := ih h₁ ha
    exact ⟨b', Result.bind_eq_ok.mpr ⟨b₁, hb₁, hb'⟩, h'⟩

theorem abort_all (txns : List TxnId) {kv : MemKvEngine Bytes} (h : kv.WF) :
    (txns.foldl Table.abort kv).WF ∧
      (∀ k, ((txns.foldl Table.abort kv).view k).commits = (kv.view k).commits) ∧
      ∀ u, (txns.foldl Table.abort kv).keysOf u ≠ [] → u ∉ txns ∧ kv.keysOf u ≠ [] := by
  induction txns generalizing kv with
  | nil => exact ⟨h, fun _ => rfl, fun u hu => ⟨not_mem_nil, hu⟩⟩
  | cons t txns ih =>
    have habort : (kv.abort t).WF := h.abort
    obtain ⟨hwf, hcommits, hkeys⟩ := ih habort
    refine ⟨hwf, fun k => ?_, fun u hu => ?_⟩
    · rw [foldl_cons, hcommits k, Table.view_abort h, commits_abort]
    obtain ⟨hout, hne⟩ := hkeys u hu
    rw [Table.keysOf_abort] at hne
    split at hne
    · exact absurd rfl hne
    next hut => exact ⟨fun hmem => (mem_cons.mp hmem).elim hut hout, hne⟩

/-- The engine at the end of a replay: the commits are those of the records, and no
write is pending. -/
theorem Follows.abort_active (h : Follows targetTs kv₀ m st) :
    (st.activeTxns.foldl Table.abort st.kv).WF ∧
      (∀ k, ((st.activeTxns.foldl Table.abort st.kv).view k).commits = (st.kv.view k).commits) ∧
      (∀ k, ((st.activeTxns.foldl Table.abort st.kv).view k).pending = none) ∧
      ∀ txnId, (st.activeTxns.foldl Table.abort st.kv).keysOf txnId = [] := by
  obtain ⟨hwf, hcommits, hkeys⟩ := abort_all st.activeTxns h.wf
  have hnone : ∀ u, (st.activeTxns.foldl Table.abort st.kv).keysOf u = [] := by
    intro u
    by_contra hne
    obtain ⟨hout, hin⟩ := hkeys u hne
    exact hout (h.active u hin)
  refine ⟨hwf, hcommits, fun k => ?_, hnone⟩
  cases hpending : ((st.activeTxns.foldl Table.abort st.kv).view k).pending with
  | none => rfl
  | some p =>
    have hindexed := hwf.indexed k p.1 (by rw [owner, hpending]; rfl)
    rw [hnone] at hindexed
    cases hindexed

variable [WalReader] [Hashes]

/-- These are the segments of the plan, and they hold the whole log of the source. -/
structure CompleteChain (s : Lsm.LsmKvEngine) (plan : PitrRestorePlan)
    (segments : List PitrWalSegmentBytes) : Prop where
  version : plan.planVersion = currentPitrRestorePlanVersion
  planned : List.Forall₂ (fun planned segment => planned.segmentId = segment.segmentId ∧
    segment.bytes.length = planned.size ∧ Hashes.sha256 segment.bytes = planned.checksum)
    plan.walSegments segments
  records : List.Forall₂ (fun segment wal => WalReader.recover segment.bytes =
    .ok (Lsm.Segment.records wal)) segments s.disk.wals.values

theorem replaySegments_same
    (hplanned : List.Forall₂ (fun planned segment => planned.segmentId = segment.segmentId ∧
      segment.bytes.length = planned.size ∧ Hashes.sha256 segment.bytes = planned.checksum)
      planned segments)
    (hrecords : List.Forall₂ (fun segment wal => WalReader.recover segment.bytes = .ok
      (Lsm.Segment.records wal)) segments wals) (h : a.Same b)
    (ha : (wals.flatMap (·.records)).foldlM (replayRecord targetTs now) a = .ok a') :
    ∃ b', (planned.zip segments).foldlM (replaySegment targetTs now) b = .ok b' ∧ a'.Same b' := by
  induction hplanned generalizing wals a b with
  | nil =>
    cases hrecords
    cases ha
    exact ⟨b, rfl, h⟩
  | @cons p segment planned segments hp _ ih =>
    cases hrecords with
    | @cons _ wal _ wals hwal hrest =>
      rw [flatMap_cons, foldlM_append] at ha
      obtain ⟨a₁, ha₁, ha⟩ := Result.bind_eq_ok.mp ha
      have hcounted : a.Same { b with report := { b.report with
        walSegmentsReplayed := b.report.walSegmentsReplayed + 1 } } := ⟨h.1, h.2⟩
      obtain ⟨b₁, hb₁, h₁⟩ := replayRecords_same hcounted ha₁
      obtain ⟨b', hb', h'⟩ := ih hrest h₁ ha
      refine ⟨b', ?_, h'⟩
      have hsegment : replaySegment targetTs now b (p, segment) = .ok b₁ := by
        simp only [replaySegment, hp.1, hp.2.1, hp.2.2, hwal]
        exact hb₁
      exact Result.bind_eq_ok.mpr ⟨b₁, hsegment, hb'⟩

end Segments

/-! ## The restored engine -/

/-- The dump holds the versions of the source up to `b`, and no others. -/
def HoldsUpTo (m : MemKvEngine Bytes) (b : Nat) (rows : List DumpRow) : Prop :=
  ∀ k, isBackupExcludedKey k = false → ∀ value version,
    (∃ row ∈ rows, row.restores = some (k, value, version)) ↔
      version ≤ b ∧ ∃ e ∈ (m.view k).commits, e.value = value ∧ e.version = version

variable {b : Nat} {rows : List DumpRow}

/-- With the versions of the dump and of the replay, the destination reads as the
source up to the target. -/
theorem get_restored {m kv₀ kv : MemKvEngine Bytes} (hinc : Lsm.Increasing m) (hm : m.WF)
    (hkv : kv.WF) (hdumped : Dumped kv₀ rows) (hdump : HoldsUpTo m b rows)
    (hk : isBackupExcludedKey k = false)
    (hcommits : (kv.view k).commits = (kv₀.view k).commits ++ (m.view k).commits.filter fun e =>
      decide (e.version ≤ targetTs)) (hread : readTs ≤ targetTs) :
    MemKvEngine.get m k readTs = MemKvEngine.get kv k readTs := by
  rw [get_eq_read, get_eq_read]
  have hset : ∀ {t : Table Bytes}, t.WF →
      ∀ e, e ∈ (t.chainAt k).commitSet ↔ e ∈ (t.view k).commits := by
    intro t ht e
    rw [Lsm.commitSet_chainAt ht]
    rfl
  -- A version of the destination is one of the source.
  have hsource : ∀ d ∈ (kv.view k).commits, ∃ e ∈ (m.view k).commits,
      e.value = d.value ∧ e.version = d.version := by
    intro d hd
    rw [hcommits] at hd
    rcases mem_append.mp hd with hd | hd
    · exact ((hdump k hk _ _).mp ((hdumped.versions k _ _).mp ⟨d, hd, rfl, rfl⟩)).2
    · exact ⟨d, (mem_filter.mp hd).1, rfl, rfl⟩
  refine VersionChain.read_congr (fun a ha d hd hver => ?_) (fun a ha hle => ?_) fun d hd _ => ?_
  · rw [hset hm] at ha
    rw [hset hkv] at hd
    obtain ⟨e, he, hvalue, hversion⟩ := hsource d hd
    rw [hinc.injOn k ha he (hver.trans hversion.symm), hvalue]
  · rw [hset hm] at ha
    refine ⟨a, ?_, rfl⟩
    rw [hset hkv, hcommits]
    exact mem_append_right _ (mem_filter.mpr ⟨ha, decide_eq_true (hle.trans hread)⟩)
  · rw [hset hkv] at hd
    obtain ⟨e, he, -, hversion⟩ := hsource d hd
    exact ⟨e, (hset hm e).mpr he, hversion⟩

/-- In every run of the source without a rejected write, apart from keys that are left
out, and with each key's commits in the order of their timestamps: restoring a dump of
the versions up to `b` and replaying the whole log up to `targetTs` succeeds, leaves no
pending write, and the destination reads as the source between the two. -/
theorem pitr_replay_reproduces [ChainCodec] [WalReader] [DumpReader] [Hashes] {ops : List Op}
    {s : Lsm.LsmKvEngine} (hrun : AcceptedRun .fresh ops s)
    (hinc : Lsm.Increasing (Lsm.reference ops)) {b : Nat} {objects : List BackupObject}
    {rows : List DumpRow} (hrows : dumpRows objects = some rows)
    (hdump : HoldsUpTo (Lsm.reference ops) b rows) {plan : PitrRestorePlan}
    {segments : List PitrWalSegmentBytes} (hchain : CompleteChain s plan segments)
    (newTxnId : Nat → TxnId) (now : Nat) :
    ∃ base kv report, restoreBackupObjectsToKv newTxnId now objects .empty = .ok base ∧
      replayPitrWalSegments now plan segments base.kv = .ok (kv, report) ∧
      (∀ k, (kv.view k).pending = none) ∧ (∀ txnId, kv.keysOf txnId = []) ∧
      ∀ readTs, b ≤ readTs → readTs ≤ plan.targetTs → ∀ k, isBackupExcludedKey k = false →
        s.get k readTs = .ok (MemKvEngine.get kv k readTs) := by
  obtain ⟨base, hbase, hdumped⟩ := restore_dumped newTxnId now hrows
  obtain ⟨⟨layers, segs, hinv⟩, -, hreplay⟩ := tracked_of_run hrun hinc
  have hstart : Follows plan.targetTs base.kv .empty ⟨base.kv, [], {}⟩ := by
    refine ⟨hdumped.wf, fun k _ => hdumped.idle k, fun k _ => (append_nil _).symm,
      fun k _ => hdumped.idle k, fun u hu => absurd (hdumped.keys u) hu⟩
  obtain ⟨st, hst, hfollows⟩ := hreplay plan.targetTs now hstart
  obtain ⟨st', hst', hsame⟩ := replaySegments_same hchain.planned hchain.records ⟨rfl, rfl⟩ hst
  have hfollows' : Follows plan.targetTs base.kv (Lsm.reference ops) st' :=
    hfollows.congr hsame.1.symm hsame.2.symm
  obtain ⟨hwf, hcommits, hpending, hkeys⟩ := hfollows'.abort_active
  refine ⟨base, st'.activeTxns.foldl Table.abort st'.kv,
    { st'.report with pendingTxnsAborted := st'.activeTxns.length }, hbase, ?_, hpending, hkeys,
    fun readTs _ hread k hk => ?_⟩
  · have hlength : segments.length = plan.walSegments.length := hchain.planned.length_eq.symm
    rw [replayPitrWalSegments, Result.ensure_bind hchain.version, Result.ensure_bind hlength, hst']
    rfl
  rw [hinv.get_ref (Nat.zero_le readTs)]
  refine congrArg _ (get_restored hinc hinv.ref hwf hdumped hdump hk ?_ hread)
  rw [hcommits k]
  exact hfollows'.commits k hk

/-! ## Concrete runs -/

theorem holdsUpTo_of_entries
    (hstore : ∀ e ∈ m.store.entries, ∀ v ∈ e.2.state.commits, v.version ≤ b → ∃ row ∈ rows,
      row.restores = some (e.1, v.value, v.version))
    (hrows : ∀ row ∈ rows, row.restores.all (fun r => decide (r.2.2 ≤ b ∧ ∃ v ∈ (m.view
      r.1).commits, v.value = r.2.1 ∧ v.version = r.2.2)) = true) : HoldsUpTo m b rows := by
  intro k _ value version
  constructor
  · rintro ⟨row, hrow, hrestores⟩
    have hall := hrows row hrow
    rw [hrestores] at hall
    exact of_decide_eq_true hall
  · rintro ⟨hle, e, he, rfl, rfl⟩
    cases hchain : m.store.get? k with
    | none =>
      rw [Table.view, Table.chainAt, hchain] at he
      cases he
    | some chain =>
      rw [Table.view, Table.chainAt, hchain] at he
      exact hstore (k, chain) (OrdMap.mem_entries.mpr hchain) e he hle

theorem acceptedRun_of_exec [ChainCodec] {ops : List Op}
    (h : execOk (fun s op => if op.isPlain then Lsm.LsmKvEngine.apply s op else none) Accepted s
      ops = some t) : AcceptedRun s ops t := by
  refine (run_of_execOk h).mono fun s op t hstep => ⟨hstep.1, ?_⟩
  have happly := hstep.2
  simp only at happly
  split at happly
  next hop => exact ⟨hop, happly⟩
  · cases happly

end BackupOrchestrator

namespace Fixed

open Lsm (Op WalRecord)
open BackupOrchestrator

/-- A version, a rotation, a second version and a write that stays open. -/
def flushedOps : List Op :=
  [.mutate (.writeIntent 1 [7] [10] 0), .mutate (.commit 1 1), .flush,
   .mutate (.writeIntent 2 [7] [11] 0), .mutate (.commit 2 3), .mutate (.writeIntent 3 [8] [12] 0)]

def rejectedOps : List Op :=
  [.mutate (.writeIntent 1 [7] [10] 0), .mutate (.writeIntent 2 [7] [11] 0), .mutate (.commit 1 5)]

/-- The second commit of a key has the lower timestamp, with a flush between them. -/
def reorderedOps : List Op :=
  [.mutate (.writeIntent 1 [7] [10] 0), .mutate (.commit 1 9), .flush,
   .mutate (.writeIntent 2 [7] [11] 0), .mutate (.commit 2 5)]

/-- A reader of the segments these runs write. -/
@[reducible] def segmentReader : WalReader where
  recover bytes :=
    if bytes = [1] then .ok [.writeIntent 1 [7] [10] (some 0), .commitTxn 1 1]
    else if bytes = [2] then .ok [.segmentHeader (some 1), .writeIntent 2 [7] [11] (some 0),
      .commitTxn 2 3, .writeIntent 3 [8] [12] (some 0)]
    else if bytes = [3] then .ok [.writeIntent 1 [7] [10] (some 0),
      .writeIntent 2 [7] [11] (some 0), .commitTxn 1 5]
    else if bytes = [4] then .ok [.writeIntent 1 [7] [10] (some 0), .commitTxn 1 9]
    else if bytes = [5] then .ok [.segmentHeader (some 1), .writeIntent 2 [7] [11] (some 0),
      .commitTxn 2 5]
    else .error "corrupt WAL"

def baseRow : DumpRow := ⟨some [7], some 1, some false, some [10]⟩

@[reducible] def dumpReader : DumpReader where
  parseDump bytes := if bytes = [9] then some [baseRow] else none

def planOf (targetTs : Nat) (ids : List UInt8) : PitrRestorePlan :=
  { planVersion := 1
    clusterId := []
    timelineId := []
    baseBackupId := []
    baseBackupChain := []
    baseSnapshotTs := 0
    targetTs := targetTs
    replayStartTs := 0
    replayEndTs := targetTs
    walSegments := ids.map fun id => ⟨[id], [], [], none, none, Hashes.sha256 [id], 1⟩ }

def segmentsOf (ids : List UInt8) : List PitrWalSegmentBytes :=
  ids.map fun id => ⟨[id], [id]⟩

end Fixed

namespace BackupOrchestrator

open Fixed

theorem completeChain_of_records {ids : List UInt8} {records : List (List Lsm.WalRecord)}
    [WalReader] (hlog : s.disk.wals.values.map (·.records) = records)
    (hread : List.Forall₂ (fun segment r => WalReader.recover segment.bytes = .ok r) (segmentsOf
      ids) records) : CompleteChain s (planOf targetTs ids) (segmentsOf ids) := by
  refine ⟨rfl, ?_, ?_⟩
  · rw [planOf, segmentsOf, forall₂_map_left_iff, forall₂_map_right_iff]
    exact forall₂_same.mpr fun id _ => ⟨rfl, rfl, rfl⟩
  · rw [← hlog, forall₂_map_right_iff] at hread
    exact hread

/-- A run over two segments, with a base at 1 and the target 3. -/
theorem pitr_replay_reproduces_flushedOps :
    letI := bincode
    letI := segmentReader
    letI := dumpReader
    ∃ s base kv report, AcceptedRun .fresh flushedOps s ∧
      restoreBackupObjectsToKv (fun _ => 77) 0 [⟨ascii "kv_data.json", [9]⟩] .empty = .ok base ∧
      replayPitrWalSegments 0 (planOf 3 [1, 2]) (segmentsOf [1, 2]) base.kv = .ok (kv, report) ∧
      s.get [7] 2 = .ok (get kv [7] 2) ∧
      s.get [8] 3 = .ok (get kv [8] 3) := by
  let := bincode
  let := segmentReader
  let := dumpReader
  obtain ⟨s, hs, hlog⟩ : ∃ s, execOk
      (fun s op => if op.isPlain then Lsm.LsmKvEngine.apply s op else none) Accepted .fresh
      flushedOps = some s ∧ s.disk.wals.values.map (·.records) =
        [[.writeIntent 1 [7] [10] (some 0), .commitTxn 1 1],
          [.segmentHeader (some 1), .writeIntent 2 [7] [11] (some 0), .commitTxn 2 3,
            .writeIntent 3 [8] [12] (some 0)]] := by
    decide +kernel
  have hchain : CompleteChain s (planOf 3 [1, 2]) (segmentsOf [1, 2]) :=
    completeChain_of_records hlog (.cons rfl (.cons rfl .nil))
  have hdump : HoldsUpTo (Lsm.reference flushedOps) 1 [baseRow] :=
    holdsUpTo_of_entries (by decide +kernel) (by decide +kernel)
  have hrun := acceptedRun_of_exec hs
  have hrows : dumpRows [⟨ascii "kv_data.json", [9]⟩] = some [baseRow] := rfl
  obtain ⟨base, kv, report, hbase, hreplay, -, -, hget⟩ := pitr_replay_reproduces hrun
    (Lsm.increasing_of_entries (by decide +kernel)) hrows hdump hchain (fun _ => 77) 0
  exact ⟨s, base, kv, report, hrun, hbase, hreplay, hget 2 (by decide) (by decide) [7] rfl,
    hget 3 (by decide) (by decide) [8] rfl⟩

/-- A replay fails at a write that the source rejected. Without one, it reads otherwise
than the source where a later commit of a key has a lower timestamp. -/
theorem pitr_replay_fails :
    letI := bincode
    letI := segmentReader
    (∃ s, exec (fun s op => Lsm.LsmKvEngine.apply s op) .fresh rejectedOps = some s ∧
      Lsm.Increasing (Lsm.reference rejectedOps) ∧ HoldsUpTo (Lsm.reference rejectedOps) 0 [] ∧
      CompleteChain s (planOf 9 [3]) (segmentsOf [3]) ∧
      replayPitrWalSegments 0 (planOf 9 [3]) (segmentsOf [3]) .empty = .error "write conflict") ∧
    ∃ s kv report, AcceptedRun .fresh reorderedOps s ∧
      HoldsUpTo (Lsm.reference reorderedOps) 0 [] ∧
      CompleteChain s (planOf 9 [4, 5]) (segmentsOf [4, 5]) ∧
      replayPitrWalSegments 0 (planOf 9 [4, 5]) (segmentsOf [4, 5]) .empty = .ok (kv, report) ∧
      s.get [7] 9 = .ok (some [11]) ∧ get kv [7] 9 = some [10] := by
  let := bincode
  let := segmentReader
  constructor
  · obtain ⟨s, hs, hlog⟩ : ∃ s, exec (fun s op => Lsm.LsmKvEngine.apply s op) .fresh rejectedOps =
        some s ∧ s.disk.wals.values.map (·.records) =
          [[.writeIntent 1 [7] [10] (some 0), .writeIntent 2 [7] [11] (some 0),
            .commitTxn 1 5]] := by
      decide +kernel
    refine ⟨s, hs, Lsm.increasing_of_entries (by decide +kernel),
      holdsUpTo_of_entries (by decide +kernel) (by decide +kernel),
      completeChain_of_records hlog (.cons rfl .nil), ?_⟩
    rfl
  · obtain ⟨s, hs, hlog, hget⟩ : ∃ s, execOk
        (fun s op => if op.isPlain then Lsm.LsmKvEngine.apply s op else none) Accepted .fresh
        reorderedOps = some s ∧ s.disk.wals.values.map (·.records) =
          [[.writeIntent 1 [7] [10] (some 0), .commitTxn 1 9],
            [.segmentHeader (some 1), .writeIntent 2 [7] [11] (some 0), .commitTxn 2 5]] ∧
          s.get [7] 9 = .ok (some [11]) := by
      decide +kernel
    obtain ⟨⟨kv, report⟩, hkv, hread⟩ : ∃ r, replayPitrWalSegments 0 (planOf 9 [4, 5])
        (segmentsOf [4, 5]) .empty = .ok r ∧ get r.1 [7] 9 = some [10] := by
      decide +kernel
    exact ⟨s, kv, report, acceptedRun_of_exec hs,
      holdsUpTo_of_entries (by decide +kernel) (by decide +kernel),
      completeChain_of_records hlog (.cons rfl (.cons rfl .nil)), hkv, hget, hread⟩

end BackupOrchestrator

end NodusDb
