import NodusDb.Raft.Intents

/-!
# The decision record of a commit over several groups

The record is a JSON text, in an envelope when it has epochs, and is read back as it was written
(`PendingTxn.decode_encode`). The commands that write it and those that prepare and commit the
groups carry an epoch or are those of older versions (`Group.apply_epochCommand`).
-/

namespace NodusDb

open Raft
open Raft.Migration (EpochMutationV1 EpochIntentOperationV1)

/-! ## The record -/

/-- `versioned::Envelope`. -/
inductive Envelope
  | versioned (version : Nat) (payload : Bytes)
  | legacy (payload : Bytes)
  deriving DecidableEq

/-- `versioned::decode`. -/
def Envelope.decode (bytes : Bytes) : Envelope :=
  match bytes with
  | a :: b :: c :: d :: lo :: hi :: payload =>
    if [a, b, c, d] = ascii "NDBv" then .versioned (lo.toNat + 256 * hi.toNat) payload
    else .legacy bytes
  | _ => .legacy bytes

structure PendingTxn where
  participants : List Bytes
  commitTs : UInt64
  epochs : OrdMap Bytes UInt64
  deriving DecidableEq

/-- The parsers of JSON records and of ids, which read arbitrary text. -/
class TextParsers where
  pendingTxn : Bytes → Option PendingTxn
  uuid : Bytes → Option Uuid

namespace PendingTxn

def json (r : PendingTxn) : Bytes :=
  let epochs := jsonObject (r.epochs.entries.map fun e => (e.1, jsonU64 e.2))
  jsonObject ([(ascii "participants", jsonArray (r.participants.map jsonString)),
    (ascii "commit_ts", jsonU64 r.commitTs)] ++
    if r.epochs.entries = [] then [] else [(ascii "epochs", epochs)])

def encode (r : PendingTxn) : Bytes :=
  if r.epochs.entries = [] then r.json else versioned 2 r.json

/-- The epochs are those of the participants; older records have none. -/
def ValidEpochs (isVersioned : Bool) (r : PendingTxn) : Prop :=
  if isVersioned then
    r.epochs.entries.length = r.participants.length ∧
      ∀ p ∈ r.participants, (r.epochs.get? p).isSome
  else r.epochs.entries = []

instance (isVersioned : Bool) (r : PendingTxn) : Decidable (r.ValidEpochs isVersioned) := by
  unfold ValidEpochs
  infer_instance

/-- The payload of a record and whether it has an envelope. -/
def payload (bytes : Bytes) : Result (Bytes × Bool) :=
  match Envelope.decode bytes with
  | .versioned version payload =>
    if version = 2 then .ok (payload, true) else .error "unsupported 2PC record version"
  | .legacy payload => .ok (payload, false)

def decode [TextParsers] (bytes : Bytes) : Result PendingTxn := do
  let (payload, isVersioned) ← payload bytes
  let record ← required (TextParsers.pendingTxn payload) "invalid JSON"
  ensure (record.ValidEpochs isVersioned) "invalid participant epochs in 2PC record"
  pure record

theorem decode_versioned (p : Bytes) : Envelope.decode (versioned 2 p) = .versioned 2 p := by
  have hascii : ascii "NDBv" = [78, 68, 66, 118] := by decide
  simp [Envelope.decode, versioned, hascii]

theorem decode_json (r : PendingTxn) : Envelope.decode r.json = .legacy r.json := by
  have hhead : ∃ rest, r.json = 123 :: rest := ⟨_, rfl⟩
  obtain ⟨rest, hrest⟩ := hhead
  rw [hrest]
  unfold Envelope.decode
  split
  next a b c d lo hi p heq =>
    have ha : a = 123 := (List.cons.inj heq).1.symm
    rw [if_neg]
    rw [ha]
    intro h
    have hascii : ascii "NDBv" = [78, 68, 66, 118] := by decide
    rw [hascii] at h
    exact absurd (List.cons.inj h).1 (by decide)
  · rfl

theorem decode_encode [TextParsers] {r : PendingTxn}
    (hparse : TextParsers.pendingTxn r.json = some r)
    (hvalid : r.epochs.entries ≠ [] → r.ValidEpochs true) : decode r.encode = .ok r := by
  have hpayload : payload r.encode = .ok (r.json, decide (r.epochs.entries ≠ [])) := by
    by_cases he : r.epochs.entries = []
    · rw [encode, if_pos he, payload, decode_json, decide_eq_false (not_not.mpr he)]
    rw [encode, if_neg he, payload, decode_versioned, decide_eq_true he]
    rfl
  have hepochs : r.ValidEpochs (decide (r.epochs.entries ≠ [])) := by
    by_cases he : r.epochs.entries = []
    · rw [decide_eq_false (not_not.mpr he)]
      exact he
    · rw [decide_eq_true he]
      exact hvalid he
  simp only [decode, hpayload, Result.bind_eq_ok, Result.required_eq_ok, Result.ensure_eq_ok]
  exact ⟨_, rfl, r, hparse, (), hepochs, rfl⟩

end PendingTxn

/-- `TXN2PC_PREFIX`. -/
def txn2pcPrefix : Bytes := 0 :: ascii "txn2pc" ++ [0]

/-- The successor of the bytes every record key starts with. -/
def txn2pcEnd : Bytes := 0 :: ascii "txn2pc" ++ [1]

def recordKey (txn : Uuid) : Bytes := txn2pcPrefix ++ txn.toText

/-! ## Commands -/

/-- `epoch_command`; `enabled` is `migration_enabled` of the router. -/
def epochCommand (enabled : Bool) (epoch : UInt64) (mutation : EpochMutationV1) : ShardCommand :=
  if enabled ∨ epoch ≠ 0 then .epochWriteV1 epoch mutation
  else
    match mutation with
    | .put txn key value => .putIntent txn key value
    | .delete txn key => .deleteIntent txn key
    | .prepare txn => .prepareTxn txn
    | .commit txn commitTs => .commitTxn txn commitTs

namespace EpochMutation

def run (kv : Kv) : EpochMutationV1 → Kv
  | .put txn key value => kv.replayAll txn [.put key (.data value)] 0
  | .delete txn key => kv.replayAll txn [.delete key] 0
  | .prepare _ => kv
  | .commit txn commitTs => kv.commit txn commitTs.toNat

/-- A write meets no other transaction's intent. -/
def Free (kv : Kv) : EpochMutationV1 → Prop
  | .put txn key _ | .delete txn key => ¬ (kv.view key).blocks txn
  | .prepare _ | .commit _ _ => True

end EpochMutation

section Commands

variable {kv kv' : Kv} {epoch : UInt64} {mutation : EpochMutationV1} {response : ShardResponse}

theorem Raft.Migration.applyEpochWrite_run (h : kv.WF)
    (ha : applyEpochWrite kv epoch mutation = .ok (kv', response)) :
    (response.success = false ∧ kv' = kv) ∨
    (response.success = true ∧ kv' = EpochMutation.run kv mutation ∧
      EpochMutation.Free kv mutation) := by
  simp only [applyEpochWrite, Result.bind_eq_ok] at ha
  obtain ⟨fence, -, ha⟩ := ha
  split at ha
  · cases ha
    exact .inl ⟨rfl, rfl⟩
  cases mutation with
  | put u k v | delete u k =>
    rcases applyIntent_cases h ha with ⟨rfl, hr⟩ | ⟨rfl, -, hb, rfl⟩
    · exact .inl ⟨hr, rfl⟩
    · exact .inr ⟨rfl, rfl, hb⟩
  | prepare u =>
    simp only at ha
    split at ha
    · cases ha
      exact .inl ⟨rfl, rfl⟩
    · cases ha
      exact .inr ⟨rfl, rfl, trivial⟩
  | commit u ts =>
    cases ha
    exact .inr ⟨rfl, rfl, trivial⟩

namespace Raft.Group

variable {s s' : Group} {index : UInt64}

theorem unfenced_writePlain_run {txn : Uuid} (op : EpochIntentOperationV1) (h : s.kv.WF)
    (ha : s.unfenced (some op.key) (writePlain s.kv txn op) = .ok (s', response)) :
    (response.success = false ∧ s'.kv = s.kv) ∨
    (response.success = true ∧ s'.kv = s.kv.replayAll txn [op.toIntent] 0 ∧
      ¬ (s.kv.view op.key).blocks txn) := by
  rcases unfenced_cases ha with ⟨rfl, hr⟩ | ⟨-, -, kv', hx, rfl⟩
  · exact .inl ⟨hr, rfl⟩
  rcases Migration.respond_writeIntentImpl h hx with ⟨rfl, rfl, -⟩ | ⟨rfl, rfl, hb⟩
  · exact .inl ⟨rfl, rfl⟩
  · exact .inr ⟨rfl, rfl, hb⟩

theorem untracked_epochCommand (enabled : Bool) (epoch : UInt64) (mutation : EpochMutationV1) :
    (epochCommand enabled epoch mutation).untracked := by
  unfold epochCommand
  split
  · trivial
  · cases mutation <;> trivial

variable [Hashes] [Serde]

/-- A command of no tracked transaction is rejected, or meets no check of
participant records. -/
theorem apply_untracked {cmd : ShardCommand} (ha : s.apply cmd index = .ok (s', response))
    (hcmd : cmd.untracked) :
    (response.success = false ∧ s'.kv = s.kv) ∨
      s.applyUntracked cmd index = .ok (s', response) := by
  rcases apply_cases ha with ⟨hkv, hr⟩ | ⟨c, kv', rfl, -⟩ | ⟨c, kv', rfl, -⟩ | ⟨c, kv', rfl, -⟩ |
    ⟨-, -, -, hx⟩
  · exact .inl ⟨hr, hkv⟩
  · exact hcmd.elim
  · exact hcmd.elim
  · exact hcmd.elim
  · exact .inr hx

theorem apply_epochCommand {enabled : Bool} (h : s.kv.WF)
    (ha : s.apply (epochCommand enabled epoch mutation) index = .ok (s', response)) :
    (response.success = false ∧ s'.kv = s.kv) ∨
    (response.success = true ∧ s'.kv = EpochMutation.run s.kv mutation ∧
      EpochMutation.Free s.kv mutation) := by
  rcases apply_untracked ha (untracked_epochCommand _ _ _) with ⟨hr, hkv⟩ | hx
  · exact .inl ⟨hr, hkv⟩
  unfold epochCommand at hx
  split at hx
  · obtain ⟨kv', hw, rfl⟩ := withKv_eq_ok hx
    exact Migration.applyEpochWrite_run h hw
  cases mutation with
  | put u k v => exact unfenced_writePlain_run (.put k v) h hx
  | delete u k => exact unfenced_writePlain_run (.delete k) h hx
  | prepare u =>
    rcases unfenced_cases hx with ⟨rfl, hr⟩ | ⟨-, -, kv', hw, rfl⟩
    · exact .inl ⟨hr, rfl⟩
    cases hw
    cases (vote s.kv (some u)).success with
    | false => exact .inl ⟨rfl, rfl⟩
    | true => exact .inr ⟨rfl, rfl, trivial⟩
  | commit u ts =>
    rcases unfenced_cases hx with ⟨rfl, hr⟩ | ⟨-, -, kv', hw, rfl⟩
    · exact .inl ⟨hr, rfl⟩
    cases hw
    exact .inr ⟨rfl, rfl, trivial⟩

end Raft.Group

end Commands

end NodusDb
