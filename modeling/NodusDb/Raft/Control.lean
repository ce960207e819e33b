import NodusDb.Raft.Records
import NodusDb.Storage.Publish

/-!
# Control records

A group keeps its control records beside the user data, under keys of their
own. A command writes a record in a transaction whose id is derived from the
record's key and the log index, and commits it at the log index.
-/

namespace NodusDb.Raft

open List

/-! ## Keys -/

/-- The group that keeps decisions, journals and the catalog. -/
def shardMeta : Bytes := ascii "shard-meta"

namespace Authority

def keyPrefix : Bytes := ascii "\x01txn-authority/"

def key (txn : Uuid) : Bytes := ascii "\x01txn-authority/v1/" ++ txn.toText

end Authority

namespace Participant

def keyPrefix : Bytes := ascii "\x01txn-participant/"

/-- The end of the range of participant keys. -/
def keyEnd : Bytes := ascii "\x01txn-participant0"

def key (txn : Uuid) : Bytes := ascii "\x01txn-participant/v1/" ++ txn.toText

end Participant

namespace Resolution

def keyPrefix : Bytes := ascii "\x01txn-resolution/"

def pendingPrefix : Bytes := ascii "\x01txn-resolution/v1/pending/"

def highWaterKey : Bytes := ascii "\x01txn-resolution/v1/high-water"

def cursorKey : Bytes := ascii "\x01txn-resolution/v1/cursor"

def progressKey (txn : Uuid) : Bytes := ascii "\x01txn-resolution/v1/progress/" ++ txn.asBytes

def pendingKey (index : UInt64) (txn : Uuid) : Bytes :=
  pendingPrefix ++ (toBeBytes index ++ txn.asBytes)

theorem prefix_progressKey (txn : Uuid) : keyPrefix <+: progressKey txn :=
  .trans (by decide) (prefix_append _ _)

theorem prefix_pendingKey (index : UInt64) (txn : Uuid) : keyPrefix <+: pendingKey index txn :=
  .trans (by decide) (prefix_append _ _)

end Resolution

namespace Migration

def keyPrefix : Bytes := ascii "\x01migration/v1/"

def fenceKey : Bytes := ascii "\x01migration/v1/fence"

/-- The prefix of the first journal, and the end of its range. -/
def journalPrefix : Bytes := ascii "\x01migration/v1/table/"
def journalEnd : Bytes := ascii "\x01migration/v1/table0"

def journalPrefixV2 : Bytes := ascii "\x01migration/v2/table/"
def journalEndV2 : Bytes := ascii "\x01migration/v2/table0"

def journalPrefixV3 : Bytes := ascii "\x01migration/v3/table/"
def journalEndV3 : Bytes := ascii "\x01migration/v3/table0"

def journalKey (table : TableId) : Bytes := journalPrefix ++ table.toText
def journalKeyV2 (table : TableId) : Bytes := journalPrefixV2 ++ table.toText
def journalKeyV3 (table : TableId) : Bytes := journalPrefixV3 ++ table.toText

/-- Keys under a migration or transaction prefix. -/
def isControlKey (key : Bytes) : Bool :=
  keyPrefix.isPrefixOf key || journalPrefixV2.isPrefixOf key || journalPrefixV3.isPrefixOf key ||
    Authority.keyPrefix.isPrefixOf key || Participant.keyPrefix.isPrefixOf key ||
    Resolution.keyPrefix.isPrefixOf key

end Migration

namespace Upgrade

def keyPrefix : Bytes := ascii "\x01upgrade/"

end Upgrade

namespace Backup

def journalPrefix : Bytes := ascii "\x01backup/v1/job/"
def journalEnd : Bytes := ascii "\x01backup/v1/job0"

def key (job : Uuid) : Bytes := journalPrefix ++ job.toText

end Backup

open Migration (isControlKey)

theorem ne_of_prefixes {p q k j : Bytes} (hk : p <+: k) (hj : q <+: j)
    (h : ¬ p.isPrefixOf q ∧ ¬ q.isPrefixOf p) : k ≠ j := by
  rintro rfl
  rcases prefix_or_prefix_of_prefix hk hj with hp | hp
  · exact h.1 (List.isPrefixOf_iff_prefix.mpr hp)
  · exact h.2 (List.isPrefixOf_iff_prefix.mpr hp)

theorem isControlKey_of_prefix (hk : p <+: k) (hp : isControlKey p = true) :
    isControlKey k = true := by
  have htrans : ∀ q : Bytes, q.isPrefixOf p = true → q.isPrefixOf k = true := fun q hq =>
    isPrefixOf_iff_prefix.mpr ((List.isPrefixOf_iff_prefix.mp hq).trans hk)
  simp only [isControlKey, Bool.or_eq_true] at hp ⊢
  rcases hp with ((((hp | hp) | hp) | hp) | hp) | hp <;> simp [htrans _ hp]

@[simp] theorem isControlKey_fenceKey : isControlKey Migration.fenceKey = true := by
  decide

@[simp] theorem isControlKey_participant (txn : Uuid) : isControlKey (Participant.key txn) = true :=
  isControlKey_of_prefix (prefix_append _ _) (by decide)

theorem Participant.ne_key_of_not_control (h : isControlKey k = false) (txn : Uuid) :
    k ≠ key txn := by
  rintro rfl
  cases (isControlKey_participant txn).symm.trans h

@[simp] theorem isControlKey_authority (txn : Uuid) : isControlKey (Authority.key txn) = true :=
  isControlKey_of_prefix (prefix_append _ _) (by decide)

theorem Participant.key_ne_fenceKey (txn : Uuid) : key txn ≠ Migration.fenceKey :=
  ne_of_prefixes (prefix_append _ _) prefix_rfl (by decide)

theorem Authority.key_ne_participant (txn txn' : Uuid) : key txn ≠ Participant.key txn' :=
  ne_of_prefixes (prefix_append _ _) (prefix_append _ _) (by decide)

theorem Authority.key_inj (h : key txn = key txn') : txn = txn' :=
  Uuid.toText_inj (append_cancel_left h)

theorem Participant.key_inj (h : key txn = key txn') : txn = txn' :=
  Uuid.toText_inj (append_cancel_left h)

/-! ## Writing records -/

abbrev Kv := MemKvEngine Value

def lookup (kv : Kv) (key : Bytes) : Option Value := kv.get key u64Max

/-- `write_intent` and `delete_intent` of a command's own record, where a
conflict stops the group. -/
def putIntent (kv : Kv) (txn : TxnId) (op : IntentOperation Value) : Result Kv :=
  match kv.writeIntentImpl txn op.key op.value 0 with
  | .ok kv => .ok kv
  | .error _ => .error "write conflict"

section Writes

variable [Hashes]

/-- The transaction in which the command at a log index writes a record. -/
def writeId (name : Bytes) (index : UInt64) : TxnId := Hashes.newV5 (name ++ toBeBytes index)

/-- Write a record, after removing what a crash may have left of the same write. -/
def saveRecord (kv : Kv) (key : Bytes) (value : Value) (index : UInt64) : Result Kv := do
  let txn := writeId key index
  let kv ← putIntent (kv.abort txn) txn (.put key value)
  pure (kv.commit txn index.toNat)

namespace Migration

def cleanControlIntent (kv : Kv) (key : Bytes) (index : UInt64) : Kv :=
  if kv.keysOf (writeId key index) ≠ [] then kv.abort (writeId key index) else kv

def write (kv : Kv) (key : Bytes) (value : Value) (index : UInt64) : Result Kv := do
  let txn := writeId key index
  let kv ← putIntent kv txn (.put key value)
  pure (kv.commit txn index.toNat)

end Migration

end Writes

/-- The writes were published in a transaction of their own: other keys lose at
most what that transaction had pending. -/
structure Published (kv kv' : Kv) (txn : TxnId) (ops : List (IntentOperation Value)) (ts : Nat) :
    Prop where
  wf : kv'.WF
  view : ∀ j, kv'.view j =
    match written j ops with
    | some v => ((kv.view j).abort txn).addCommit txn v ts
    | none => (kv.view j).abort txn
  keysOf : ∀ u, kv'.keysOf u = if u = txn then [] else kv.keysOf u

namespace Published

variable {kv kv' kv'' : Kv} {txn : TxnId} {ops : List (IntentOperation Value)} {ts : Nat}

theorem intro (h : kv.WF) (hidle : ∀ j, (kv.view j).owner ≠ some txn)
    (hfree : ∀ op ∈ ops, (kv.view op.key).pending = none) :
    Published kv (kv.publish txn ops ts) txn ops ts := by
  refine ⟨h.publish, fun j => ?_, Table.keysOf_publish h⟩
  rw [Table.view_publish h hidle fun op hop => KeyState.not_blocks_of_pending (hfree op hop),
    KeyState.abort_of_owner_ne (hidle j)]
  cases written j ops <;> rfl

theorem abort (h : kv.WF) : Published kv (kv.abort txn) txn [] ts :=
  ⟨h.abort, Table.view_abort h, Table.keysOf_abort⟩

theorem clean (h : kv.WF) (hidle : kv.keysOf txn = []) : Published kv kv txn [] ts := by
  refine ⟨h, fun j => ?_, fun u => ?_⟩
  · refine (KeyState.abort_of_owner_ne fun ho => ?_).symm
    have hmem := h.indexed j txn ho
    rw [hidle] at hmem
    cases hmem
  · split
    next hu => rw [hu, hidle]
    · rfl

theorem trans (h₁ : Published kv kv' txn [] ts) (h₂ : Published kv' kv'' txn ops ts) :
    Published kv kv'' txn ops ts := by
  refine ⟨h₂.wf, fun j => ?_, fun u => ?_⟩
  · have hj : kv'.view j = (kv.view j).abort txn := h₁.view j
    rw [h₂.view j, hj, KeyState.abort_abort]
  · rw [h₂.keysOf, h₁.keysOf]
    split <;> rfl

theorem idle (h : Published kv kv' txn [] ts) (j : Bytes) : (kv'.view j).owner ≠ some txn := by
  have hj : kv'.view j = (kv.view j).abort txn := h.view j
  rw [hj]
  exact KeyState.owner_abort_ne

variable {j : Bytes}

theorem view_of_none (h : Published kv kv' txn ops ts) (hj : written j ops = none) :
    kv'.view j = (kv.view j).abort txn := by
  rw [h.view, hj]

theorem view_of_some (h : Published kv kv' txn ops ts) (hj : written j ops = some v)
    (hfree : (kv.view j).pending = none) : kv'.view j = (kv.view j).addCommit txn v ts := by
  rw [h.view, hj]
  show ((kv.view j).abort txn).addCommit txn v ts = _
  rw [KeyState.abort_of_pending hfree]

theorem pending (h : Published kv kv' txn ops ts) (hfree : (kv.view j).pending = none) :
    (kv'.view j).pending = none := by
  cases hw : written j ops with
  | none => rw [h.view_of_none hw, KeyState.pending_abort_of_pending hfree]
  | some v =>
    rw [h.view_of_some hw hfree]
    rfl

theorem lookup_of_none (hwf : kv.WF) (h : Published kv kv' txn ops ts)
    (hj : written j ops = none) : lookup kv' j = lookup kv j := by
  refine MemKvEngine.get_eq_of_commits h.wf hwf ?_
  rw [h.view_of_none hj, KeyState.commits_abort]

theorem lookup_of_some (h : Published kv kv' txn ops ts) (hj : written j ops = some v)
    (hfree : (kv.view j).pending = none) (hmax : ∀ m ∈ (kv.view j).commits, m.version ≤ ts)
    (hts : ts ≤ u64Max) : lookup kv' j = v := by
  rw [lookup, MemKvEngine.get_eq h.wf, h.view_of_some hj hfree, KeyState.read_addCommit hmax hts]

end Published

/-! ## The writes of the commands -/

variable {kv kv' : Kv} {txn : TxnId}

theorem putIntent_eq (h : kv.WF) (op : IntentOperation Value) (hb : ¬ (kv.view op.key).blocks txn) :
    putIntent kv txn op = .ok (kv.replayIntent txn op.key op.value 0) := by
  rw [putIntent, Table.writeIntentImpl_eq_replay h hb]

theorem putIntent_ok (h : kv.WF) (hp : putIntent kv txn op = .ok kv') :
    ¬ (kv.view op.key).blocks txn ∧ kv' = kv.replayIntent txn op.key op.value 0 := by
  have hb : ¬ (kv.view op.key).blocks txn := by
    intro hb
    obtain ⟨o, -, hw⟩ : ∃ o, (kv.view op.key).owner = some o ∧
        kv.writeIntentImpl txn op.key op.value 0 = .error (.writeConflict o) :=
      Table.writeIntentImpl_of_blocks h hb
    rw [putIntent, hw] at hp
    cases hp
  rw [putIntent_eq h op hb] at hp
  cases hp
  exact ⟨hb, rfl⟩

theorem blocks_write {s : KeyState Value} {v : Option Value} :
    (s.write txn v).blocks txn ↔ s.blocks txn := by
  by_cases hb : s.blocks txn
  · rw [KeyState.write, if_pos hb]
  · exact ⟨fun h => absurd h (Table.not_blocks_write hb), fun h => absurd h hb⟩

theorem foldlM_putIntent_ok (ops : List (IntentOperation Value)) (kv : Kv) (h : kv.WF)
    (hp : ops.foldlM (fun kv op => putIntent kv txn op) kv = .ok kv') :
    (∀ op ∈ ops, ¬ (kv.view op.key).blocks txn) ∧ kv' = kv.replayAll txn ops 0 := by
  induction ops generalizing kv with
  | nil =>
    cases hp
    exact ⟨by simp, rfl⟩
  | cons op ops ih =>
    simp only [foldlM_cons, Result.bind_eq_ok] at hp
    obtain ⟨kv₁, hop, hp⟩ := hp
    obtain ⟨hb, rfl⟩ := putIntent_ok h hop
    obtain ⟨hbs, rfl⟩ := ih _ h.replayIntent hp
    refine ⟨fun op' hop' => ?_, rfl⟩
    rcases mem_cons.mp hop' with rfl | hop'
    · exact hb
    have := hbs op' hop'
    rw [Table.view_replayIntent h] at this
    split at this
    next heq => rwa [heq, ← blocks_write]
    · exact this

theorem pending_of_not_blocks {s : KeyState Value} (hidle : s.owner ≠ some txn)
    (hb : ¬ s.blocks txn) : s.pending = none := by
  cases hp : s.pending with
  | none => rfl
  | some p =>
    refine absurd ⟨?_, hidle⟩ hb
    rw [KeyState.owner, hp]
    rintro ⟨⟩

theorem published_of_foldlM {ops : List (IntentOperation Value)} (h : kv.WF)
    (hidle : ∀ j, (kv.view j).owner ≠ some txn)
    (hp : ops.foldlM (fun kv op => putIntent kv txn op) kv = .ok kv') :
    Published kv (kv'.commit txn ts) txn ops ts := by
  obtain ⟨hb, rfl⟩ := foldlM_putIntent_ok ops kv h hp
  exact .intro h hidle fun op hop => pending_of_not_blocks (hidle op.key) (hb op hop)

section Writes

variable [Hashes] {key : Bytes} {index : UInt64}

theorem saveRecord_ok (h : kv.WF) (hs : saveRecord kv key value index = .ok kv') :
    Published kv kv' (writeId key index) [.put key value] index.toNat := by
  have habort : Published kv (kv.abort (writeId key index)) (writeId key index) [] index.toNat :=
    .abort h
  simp only [saveRecord, Result.bind_eq_ok] at hs
  obtain ⟨kv₁, hp, hs⟩ := hs
  cases hs
  refine habort.trans (published_of_foldlM h.abort habort.idle ?_)
  rw [foldlM_cons, hp]
  rfl

theorem Migration.clean_spec (h : kv.WF) :
    Published kv (cleanControlIntent kv key index) (writeId key index) [] index.toNat := by
  unfold cleanControlIntent
  split
  · exact .abort h
  next hk => exact .clean h (not_not.mp hk)

theorem Migration.write_ok (h : kv.WF) (hidle : ∀ j, (kv.view j).owner ≠ some (writeId key index))
    (hw : write kv key value index = .ok kv') :
    Published kv kv' (writeId key index) [.put key value] index.toNat := by
  simp only [write, Result.bind_eq_ok] at hw
  obtain ⟨kv₁, hp, hw⟩ := hw
  cases hw
  refine published_of_foldlM h hidle ?_
  rw [foldlM_cons, hp]
  rfl

end Writes

end NodusDb.Raft
