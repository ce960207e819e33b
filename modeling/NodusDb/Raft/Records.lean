import NodusDb.Lib.Json
import NodusDb.Lib.Results
import NodusDb.Raft.Journals
import NodusDb.Storage.Mem

/-!
# Replicated records

The records a Raft group keeps in its key-value engine; the migration fence and the journals are in
`Raft.Journals`. A stored value is user data or a record (`Value`). In the source a record is bytes,
a versioned envelope around a JSON text; here it is stored as it is, and `encode` is what it would
be written as, since some checks look at its length.
-/

namespace NodusDb

open List

def ascii (s : String) : Bytes := s.toList.map fun c => c.toNat.toUInt8

/-- `u64::to_be_bytes`. -/
def toBeBytes (n : UInt64) : Bytes := digits UInt8.ofNat 256 8 n.toNat

/-- `u64::from_be_bytes`, on eight bytes. -/
def fromBeBytes (b : Bytes) : UInt64 := UInt64.ofNat (undigits UInt8.toNat 256 b)

/-- `u64::checked_add(1)`. -/
def checkedSucc (n : UInt64) : Option UInt64 := if n.toNat < u64Max then some (n + 1) else none

namespace Uuid

def toNat (u : Uuid) : Nat := Fin.val u

def isNil (u : Uuid) : Bool := u = 0

def asBytes (u : Uuid) : Bytes := digits UInt8.ofNat 256 16 u.toNat

def hexDigit (d : Nat) : UInt8 := UInt8.ofNat (if d < 10 then 48 + d else 87 + d)

/-- The hyphenated text of an id, `to_string`. -/
def toText (u : Uuid) : Bytes :=
  let hex := digits hexDigit 16 32 u.toNat
  hex.take 8 ++ 45 :: (hex.drop 8).take 4 ++ 45 :: (hex.drop 12).take 4 ++
    45 :: (hex.drop 16).take 4 ++ 45 :: hex.drop 20

/-- The version field: 4 for random ids, 5 for derived ones. -/
def version (u : Uuid) : Nat := u.toNat / 2 ^ 76 % 16

end Uuid

theorem ofNat_lt_iff (d e : Nat) (hd : d < 256) (he : e < 256) :
    UInt8.ofNat d < UInt8.ofNat e ↔ d < e := by
  rw [UInt8.lt_iff_toNat_lt, UInt8.toNat_ofNat_of_lt' hd, UInt8.toNat_ofNat_of_lt' he]

theorem checkedSucc_eq_some {n m : UInt64} (h : checkedSucc n = some m) :
    m.toNat = n.toNat + 1 := by
  unfold checkedSucc at h
  split at h
  next hlt =>
    cases h
    rw [UInt64.toNat_add, UInt64.toNat_one]
    refine Nat.mod_eq_of_lt ?_
    have : u64Max = 2 ^ 64 - 1 := rfl
    omega
  · cases h

theorem checkedSucc_gt {n m : UInt64} (h : checkedSucc n = some m) : n < m :=
  UInt64.lt_iff_toNat_lt.mpr (by rw [checkedSucc_eq_some h]; exact Nat.lt_succ_self _)

theorem toBeBytes_inj {a b : UInt64} (h : toBeBytes a = toBeBytes b) : a = b :=
  UInt64.toNat.inj (digits_inj ofNat_lt_iff a.toNat_lt b.toNat_lt h)

namespace Uuid

theorem filter_toText (u : Uuid) : u.toText.filter (· != 45) = digits hexDigit 16 32 u.toNat := by
  have hdigit : ∀ d < 16, hexDigit d ≠ 45 := by decide
  have hne : ∀ c ∈ digits hexDigit 16 32 u.toNat, c ≠ 45 := by
    intro c hc
    obtain ⟨d, hd, rfl⟩ := mem_digits (by decide) hc
    exact hdigit d hd
  rw [toText]
  generalize digits hexDigit 16 32 u.toNat = hex at hne
  have hself : ∀ l : Bytes, l ⊆ hex → l.filter (· != 45) = l := fun l hl =>
    filter_eq_self.mpr fun c hc => bne_iff_ne.mpr (hne c (hl hc))
  have htake : ∀ n k, ((hex.drop n).take k).filter (· != 45) = (hex.drop n).take k := fun n k =>
    hself _ fun _ hc => mem_of_mem_drop (mem_of_mem_take hc)
  have hparts : ∀ n k, (hex.drop n).take k ++ hex.drop (n + k) = hex.drop n := by
    intro n k
    rw [← drop_drop, take_append_drop]
  have hhyphen : ∀ l : Bytes, (45 :: l).filter (· != 45) = l.filter (· != 45) := fun _ => rfl
  simp only [filter_append, hhyphen, htake, append_assoc]
  rw [hself _ (take_subset 8 hex), hself _ (drop_subset 20 hex), hparts 16 4,
    hparts 12 4, hparts 8 4, take_append_drop]

theorem toText_inj {a b : Uuid} (h : a.toText = b.toText) : a = b := by
  have hdigit : ∀ d < 16, ∀ e < 16, hexDigit d < hexDigit e ↔ d < e := by decide
  have hlt : ∀ u : Uuid, u.toNat < 16 ^ 32 := fun u => lt_of_lt_of_eq u.isLt (by norm_num)
  have hhex : digits hexDigit 16 32 a.toNat = digits hexDigit 16 32 b.toNat := by
    rw [← filter_toText, ← filter_toText, h]
  exact Fin.eq_of_val_eq (digits_inj (fun d e hd he => hdigit d hd e he) (hlt a) (hlt b) hhex)

end Uuid

/-- A SHA-256 digest, `[u8; 32]`. -/
structure Digest where
  bytes : Bytes
  length_eq : bytes.length = 32
  deriving DecidableEq

/-- The hash functions the group uses. -/
class Hashes where
  /-- `Uuid::new_v5` in the OID namespace. -/
  newV5 : Bytes → Uuid
  /-- Derived ids say so in their version field. -/
  newV5_version : ∀ name, (newV5 name).version = 5
  sha256 : Bytes → Digest

namespace Raft

structure ShardResponse where
  success : Bool
  error : Option String
  deriving DecidableEq, Repr

def accepted : ShardResponse := ⟨true, none⟩

def reject (error : String) : ShardResponse := ⟨false, some error⟩

namespace Authority

/-- A coordinator: a node and its incarnation. -/
structure OwnerV1 where
  nodeId : UInt64
  incarnation : Uuid
  deriving DecidableEq, Repr

structure TokenV1 where
  owner : OwnerV1
  generation : UInt64
  revision : UInt64
  deriving DecidableEq, Repr

inductive PhaseV1
  | active
  | preparing
  | committed (commitTs : UInt64)
  | aborted
  deriving DecidableEq, Repr

def PhaseV1.terminal : PhaseV1 → Bool
  | committed _ | aborted => true
  | active | preparing => false

/-- A transaction and its decision. Participants are groups with their epochs. -/
structure RecordV1 where
  txnId : Uuid
  token : TokenV1
  participants : OrdMap Bytes UInt64
  phase : PhaseV1
  deriving DecidableEq

end Authority

namespace Participant

inductive PhaseV1
  | active
  | prepared (keysHash : Digest)
  | committed (commitTs : UInt64)
  | aborted
  deriving DecidableEq

def PhaseV1.terminal : PhaseV1 → Bool
  | committed _ | aborted => true
  | active | prepared _ => false

structure RecordV1 where
  txnId : Uuid
  owner : Authority.OwnerV1
  generation : UInt64
  epoch : UInt64
  phase : PhaseV1
  deriving DecidableEq

end Participant

namespace Resolution

/-- Which participants have acknowledged a decision. -/
structure ProgressV1 where
  txnId : Uuid
  index : UInt64
  decision : Authority.TokenV1
  acknowledged : OrdMap Bytes Unit
  complete : Bool
  deriving DecidableEq

structure CursorV1 where
  revision : UInt64
  after : UInt64
  through : UInt64
  deriving DecidableEq, Repr

end Resolution

inductive Value
  /-- User data. -/
  | data (bytes : Bytes)
  | authority (record : Authority.RecordV1)
  | participant (record : Participant.RecordV1)
  | progress (progress : Resolution.ProgressV1)
  /-- The content of a row of the resolution queue. -/
  | txn (txn : Uuid)
  | highWater (index : UInt64)
  | cursor (cursor : Resolution.CursorV1)
  | fence (fence : Migration.ParticipantFence)
  | migration (record : Migration.MigrationRecord)
  | migrationV2 (record : Migration.RecordV2)
  | migrationV3 (record : Migration.RecordV3)
  | job (job : Backup.JobV1)
  deriving DecidableEq

/-! ## Encoding -/

/-- `versioned::encode`: the magic bytes, the version, the payload. -/
def versioned (version : Nat) (payload : Bytes) : Bytes :=
  ascii "NDBv" ++ [UInt8.ofNat version, UInt8.ofNat (version / 256)] ++ payload

def jsonU64 (n : UInt64) : Bytes := jsonNumber n.toNat

def jsonUuid (u : Uuid) : Bytes := jsonString u.toText

namespace Authority

def OwnerV1.json (o : OwnerV1) : Bytes :=
  jsonObject [(ascii "node_id", jsonU64 o.nodeId), (ascii "incarnation", jsonUuid o.incarnation)]

def TokenV1.json (t : TokenV1) : Bytes :=
  jsonObject [(ascii "owner", t.owner.json), (ascii "generation", jsonU64 t.generation),
    (ascii "revision", jsonU64 t.revision)]

def PhaseV1.json : PhaseV1 → Bytes
  | active => jsonString (ascii "Active")
  | preparing => jsonString (ascii "Preparing")
  | committed commitTs =>
    jsonObject [(ascii "Committed", jsonObject [(ascii "commit_ts", jsonU64 commitTs)])]
  | aborted => jsonString (ascii "Aborted")

def RecordV1.json (r : RecordV1) : Bytes :=
  jsonObject [(ascii "txn_id", jsonUuid r.txnId), (ascii "token", r.token.json),
    (ascii "participants", jsonObject (r.participants.entries.map fun e => (e.1, jsonU64 e.2))),
    (ascii "phase", r.phase.json)]

def encode (r : RecordV1) : Bytes := versioned 1 r.json

end Authority

namespace Participant

def PhaseV1.json : PhaseV1 → Bytes
  | active => jsonString (ascii "Active")
  | prepared keysHash =>
    jsonObject [(ascii "Prepared", jsonObject [(ascii "keys_hash",
      jsonArray (keysHash.bytes.map fun b => jsonNumber b.toNat))])]
  | committed commitTs =>
    jsonObject [(ascii "Committed", jsonObject [(ascii "commit_ts", jsonU64 commitTs)])]
  | aborted => jsonString (ascii "Aborted")

def RecordV1.json (r : RecordV1) : Bytes :=
  jsonObject [(ascii "txn_id", jsonUuid r.txnId), (ascii "owner", r.owner.json),
    (ascii "generation", jsonU64 r.generation), (ascii "epoch", jsonU64 r.epoch),
    (ascii "phase", r.phase.json)]

def encode (r : RecordV1) : Bytes := versioned 1 r.json

end Participant

namespace Resolution

def ProgressV1.json (p : ProgressV1) : Bytes :=
  jsonObject [(ascii "txn_id", jsonUuid p.txnId), (ascii "index", jsonU64 p.index),
    (ascii "decision", p.decision.json),
    (ascii "acknowledged", jsonArray (p.acknowledged.keys.map jsonString)),
    (ascii "complete", jsonBool p.complete)]

def CursorV1.json (c : CursorV1) : Bytes :=
  jsonObject [(ascii "revision", jsonU64 c.revision), (ascii "after", jsonU64 c.after),
    (ascii "through", jsonU64 c.through)]

/-- What `encode` writes for a record of the queue. -/
def encode : Value → Bytes
  | .progress p => versioned 1 p.json
  | .txn u => versioned 1 (jsonUuid u)
  | .highWater n => versioned 1 (jsonU64 n)
  | .cursor c => versioned 1 c.json
  | _ => []

end Resolution

/-! ## Lengths -/

theorem length_jsonU64_le (n : UInt64) : (jsonU64 n).length ≤ 20 :=
  length_jsonNumber_le (by decide) (n.toNat_lt.trans (by decide))

theorem length_jsonUuid_le (u : Uuid) : (jsonUuid u).length ≤ 218 := by
  have hlen : u.toText.length = 36 := by
    simp [Uuid.toText]
  have := length_jsonString_le u.toText
  rw [hlen] at this
  exact this

theorem length_versioned (version : Nat) (payload : Bytes) :
    (versioned version payload).length = 6 + payload.length := by
  rw [versioned, length_append]
  rfl

theorem length_jsonObject_two (m n v w : Bytes) :
    (jsonObject [(m, v), (n, w)]).length =
      5 + (jsonString m).length + v.length + (jsonString n).length + w.length := by
  rw [length_jsonObject]
  simp only [map_cons, map_nil, sum_cons, sum_nil, length_cons, length_nil]
  omega

theorem length_owner_le (o : Authority.OwnerV1) : o.json.length ≤ 300 := by
  have h1 := length_jsonU64_le o.nodeId
  have h2 := length_jsonUuid_le o.incarnation
  have hn : (jsonString (ascii "node_id")).length = 9 := by decide
  have hi : (jsonString (ascii "incarnation")).length = 13 := by decide
  rw [Authority.OwnerV1.json, length_jsonObject_two]
  omega

theorem length_participantPhase_le (phase : Participant.PhaseV1) : phase.json.length ≤ 300 := by
  cases phase with
  | active => decide
  | aborted => decide
  | committed commitTs =>
    have h1 := length_jsonU64_le commitTs
    have hc : (jsonString (ascii "Committed")).length = 11 := by decide
    have ht : (jsonString (ascii "commit_ts")).length = 11 := by decide
    simp only [Participant.PhaseV1.json, length_jsonObject, map_cons, map_nil,
      sum_cons, sum_nil, length_cons, length_nil]
    omega
  | prepared keysHash =>
    have hp : (jsonString (ascii "Prepared")).length = 10 := by decide
    have hk : (jsonString (ascii "keys_hash")).length = 11 := by decide
    have hsum : ((keysHash.bytes.map fun b => jsonNumber b.toNat).map length).sum ≤
        keysHash.bytes.length * 3 := by
      rw [map_map]
      refine (sum_le_card_nsmul _ 3 fun n hn => ?_).trans (by simp)
      obtain ⟨b, -, rfl⟩ := mem_map.mp hn
      exact length_jsonNumber_le (by decide) (b.toNat_lt.trans (by decide))
    rw [keysHash.length_eq] at hsum
    simp only [Participant.PhaseV1.json, length_jsonObject, length_jsonArray, map_cons,
      map_nil, sum_cons, sum_nil, length_cons, length_nil,
      length_map, keysHash.length_eq] at hsum ⊢
    omega

theorem length_encode_participant (r : Participant.RecordV1) :
    (Participant.encode r).length ≤ 4096 := by
  have h1 := length_jsonUuid_le r.txnId
  have h2 := length_owner_le r.owner
  have h3 := length_jsonU64_le r.generation
  have h4 := length_jsonU64_le r.epoch
  have h5 := length_participantPhase_le r.phase
  have n1 : (jsonString (ascii "txn_id")).length = 8 := by decide
  have n2 : (jsonString (ascii "owner")).length = 7 := by decide
  have n3 : (jsonString (ascii "generation")).length = 12 := by decide
  have n4 : (jsonString (ascii "epoch")).length = 7 := by decide
  have n5 : (jsonString (ascii "phase")).length = 7 := by decide
  rw [Participant.encode, length_versioned, Participant.RecordV1.json, length_jsonObject]
  simp only [map_cons, map_nil, sum_cons, sum_nil, length_cons, length_nil]
  omega

end Raft

end NodusDb
