import NodusDb.Lib.Run
import NodusDb.Raft.Steps

/-!
# Runs of a group

A replica applies the entries of its group's log in order. Whatever the commands are, between two
entries the control records stay readable (`Settled`): an entry leaves the records it is not about,
and a record it writes is what is read next.
-/

namespace NodusDb.Raft

open Migration (isControlKey)

/-- An entry of a log and the response to it. -/
structure AppliedEntry where
  index : UInt64
  cmd : ShardCommand
  response : ShardResponse
  deriving DecidableEq

/-- A group and the least index an entry that is not applied may have. -/
structure Replica where
  group : Group
  nextIndex : Nat

namespace Replica

/-- A group before its first entry; the meta group has a metadata store. -/
def empty (name : Bytes) (store : Option MemMetaStore) : Replica :=
  ⟨⟨name, .empty, false, store⟩, 0⟩

def kv (s : Replica) : Kv := s.group.kv

variable [Hashes] [Serde]

/-- Apply one entry. There is no next state when the entry is out of order, when
applying it fails, which stops the group, or when the response is another. -/
def next (s : Replica) (e : AppliedEntry) : Option Replica :=
  if e.index.toNat < s.nextIndex then none
  else
    match s.group.apply e.cmd e.index with
    | .ok (group, response) =>
      if response = e.response then some ⟨group, e.index.toNat + 1⟩ else none
    | .error _ => none

def Step (s : Replica) (e : AppliedEntry) (s' : Replica) : Prop := s.next e = some s'

variable {s s' : Replica} {e : AppliedEntry}

theorem next_eq_some (h : s.Step e s') :
    s.nextIndex ≤ e.index.toNat ∧ s'.nextIndex = e.index.toNat + 1 ∧
      s.group.apply e.cmd e.index = .ok (s'.group, e.response) := by
  unfold Step next at h
  split at h
  · cases h
  next hindex =>
  split at h
  next happly =>
    split at h
    next hr =>
      cases h
      exact ⟨Nat.not_lt.mp hindex, rfl, by rw [happly, hr]⟩
    · cases h
  · cases h

end Replica

/-- What holds of a replica between two entries. -/
structure Settled (s : Replica) : Prop where
  wf : s.kv.WF
  idle : ∀ j, isControlKey j = true → (s.kv.view j).pending = none
  versions : ∀ j, isControlKey j = true → (∀ txn, j ≠ Participant.key txn) →
    ∀ m ∈ (s.kv.view j).commits, m.version < s.nextIndex

theorem settled_empty (name : Bytes) (store : Option MemMetaStore) : Settled (.empty name store) :=
  ⟨Table.wf_empty, fun _ _ => rfl, fun _ _ _ _ hm => nomatch hm⟩

theorem Settled.lookup_published (h : Settled s) {txn : TxnId} {index : UInt64}
    {ops : List (IntentOperation Value)} (hindex : s.nextIndex ≤ index.toNat)
    (hj : isControlKey j = true) (hpart : ∀ txn, j ≠ Participant.key txn)
    (hpub : Published s.kv kv' txn ops index.toNat) (hw : written j ops = some v) :
    lookup kv' j = v :=
  hpub.lookup_of_some hw (h.idle j hj)
    (fun m hm => (h.versions j hj hpart m hm).le.trans hindex) (Nat.le_sub_one_of_lt index.toNat_lt)

section Steps

variable [Hashes] [Serde] {s s' : Replica} {e : AppliedEntry}

theorem Settled.step (h : Settled s) (hs : s.Step e s') : Settled s' := by
  obtain ⟨hindex, hnext, happly⟩ := Replica.next_eq_some hs
  have hacts := Group.apply_acts h.wf happly
  refine ⟨hacts.wf h.wf, fun j hj => Acts.pending_control h.wf hj (h.idle j hj) hacts,
    fun j hj hpart m hm => ?_⟩
  rw [hnext, Nat.lt_succ_iff]
  refine Acts.versions_control h.wf hj (h.idle j hj) hacts hpart (fun m hm => ?_) m hm
  exact (h.versions j hj hpart m hm).le.trans hindex

theorem Settled.view_of_records (h : Settled s) (hs : s.Step e s') (hj : isControlKey j = true)
    (hout : ¬ e.cmd.records j) : s'.kv.view j = s.kv.view j := by
  obtain ⟨-, -, happly⟩ := Replica.next_eq_some hs
  exact Acts.view_control h.wf hj (h.idle j hj) (Group.apply_acts h.wf happly) hout

theorem Settled.lookup_of_records (h : Settled s) (hs : s.Step e s') (hj : isControlKey j = true)
    (hout : ¬ e.cmd.records j) : lookup s'.kv j = lookup s.kv j :=
  lookup_eq_of_commits h.wf (h.step hs).wf (by rw [h.view_of_records hs hj hout])

end Steps

end NodusDb.Raft

namespace NodusDb.Fixed

/-- Hashes that do not depend on what is hashed, to evaluate concrete runs. -/
scoped instance hashes : Hashes where
  newV5 _ := ⟨5 * 2 ^ 76, by decide⟩
  newV5_version _ := by decide
  sha256 _ := ⟨List.replicate 32 0, by decide⟩

/-- User data is no backup job. -/
scoped instance serde : Serde where
  parseJob _ := none

end NodusDb.Fixed
