import NodusDb.Raft.Truncation

/-!
# Appending and purging across crashes

A node appends, truncates, purges and applies, and may be opened again after any durable write of
an append or a purge. `Sound` says what it has stored; a step keeps it if no record is stamped below
the one it replaces.

* `log_recovered`: the log, the watermark and the appended entries after a crash.
* `purged_log_lost`: a purge on a clock that went back loses entries.
-/

namespace NodusDb.Raft

open List Nat

variable {P M : Type}

/-! ## Steps -/

inductive LogLabel (P M : Type)
  | append (entries : List (Entry P)) (txnId : TxnId) (wall : UInt64)
  | truncate (logId : LogId) (writes : List (TxnId × UInt64))
  | purge (target : LogId) (writes : List (TxnId × UInt64))
  /-- The end of `apply_to_state_machine`: the applied pointer moves. -/
  | applied (id : LogId) (membership : M) (txnId : TxnId) (wall : UInt64)
  /-- A crash or a stop, and the next start. -/
  | reopen (txnId : TxnId) (wall : UInt64)

namespace NodusRaftStore

def step [Inhabited M] (st : NodusRaftStore P M) : LogLabel P M → Option (NodusRaftStore P M)
  | .append entries txnId wall => (st.appendToLog entries txnId wall).toOption
  | .truncate logId writes => (st.deleteConflictLogsSince logId writes).toOption
  | .purge target writes => (st.purgeLogPrefix target writes).toOption
  | .applied id membership txnId wall =>
    (persistApplied { st with lastApplied := some id, lastMembership := membership } txnId
      wall).toOption
  | .reopen txnId wall => (withKv st.metaStore.kv txnId wall).toOption

def Consecutive (start : Nat) : List (Entry P) → Prop
  | [] => True
  | e :: es => e.index = start ∧ Consecutive (start + 1) es

instance decidableConsecutive (start : Nat) : (es : List (Entry P)) →
    Decidable (Consecutive start es)
  | [] => isTrue trivial
  | e :: es =>
    have := decidableConsecutive (start + 1) es
    inferInstanceAs (Decidable (e.index = start ∧ Consecutive (start + 1) es))

/-- The entries follow the last log id; a first entry has index 0 or 1. -/
def Follows (st : NodusRaftStore P M) (entries : List (Entry P)) : Prop :=
  match st.getLogState.lastLogId with
  | some last => Consecutive (last.index.toNat + 1) entries
  | none => Consecutive 0 entries ∨ Consecutive 1 entries

instance (st : NodusRaftStore P M) (entries : List (Entry P)) : Decidable (st.Follows entries) := by
  unfold Follows
  split <;> infer_instance

/-- No batch of the purge is stamped below a record it replaces. -/
def PurgeStamped (st : NodusRaftStore P M) (target : LogId) : List (TxnId × UInt64) → Prop
  | [] => True
  | w :: ws => ((∀ id ∈ st.purgeEntries target, st.metaStore.Above w.2 (logKey id.index)) ∧
      st.metaStore.Above w.2 raftAppliedKey) ∧
    match st.purgeRound target w.1 w.2 with
    | .ok (st, false) => PurgeStamped st target ws
    | _ => True

instance decidablePurgeStamped (st : NodusRaftStore P M) (target : LogId) :
    (ws : List (TxnId × UInt64)) → Decidable (st.PurgeStamped target ws)
  | [] => isTrue trivial
  | w :: ws =>
    match h : st.purgeRound target w.1 w.2 with
    | .ok (st', false) =>
      have := decidablePurgeStamped st' target ws
      decidable_of_iff (((∀ id ∈ st.purgeEntries target,
        st.metaStore.Above w.2 (logKey id.index)) ∧ st.metaStore.Above w.2 raftAppliedKey) ∧
        st'.PurgeStamped target ws) (by rw [PurgeStamped, h])
    | .ok (st', true) =>
      decidable_of_iff ((∀ id ∈ st.purgeEntries target,
        st.metaStore.Above w.2 (logKey id.index)) ∧ st.metaStore.Above w.2 raftAppliedKey)
        (by rw [PurgeStamped, h]; exact (and_iff_left trivial).symm)
    | .error _ =>
      decidable_of_iff ((∀ id ∈ st.purgeEntries target,
        st.metaStore.Above w.2 (logKey id.index)) ∧ st.metaStore.Above w.2 raftAppliedKey)
        (by rw [PurgeStamped, h]; exact (and_iff_left trivial).symm)

/-- The steps a Raft node takes, with no record stamped below the one it
replaces: entries are appended behind the last one, a truncation ends and keeps
what is applied, and what is applied is in the log. -/
def Steady (st : NodusRaftStore P M) : LogLabel P M → Prop
  | .append entries _ wall => st.Follows entries ∧
    ∀ e ∈ entries, st.metaStore.Above wall (logKey e.logId.index)
  | .truncate logId writes => (st.conflictKeys logId).length ≤ writes.length ∧
    (∀ id ∈ st.lastApplied, id.index < logId.index) ∧
    st.DeletesStamped ((st.conflictKeys logId).zip writes)
  | .purge target writes => st.purged target = true ∨ st.PurgeStamped target writes
  | .applied id _ _ wall => (st.log.get? id.index.toNat).map (·.logId) = some id ∧
    st.metaStore.Above wall raftAppliedKey
  | .reopen .. => True

instance (st : NodusRaftStore P M) (label : LogLabel P M) : Decidable (st.Steady label) := by
  cases label <;> unfold Steady <;> infer_instance

/-- What a node has stored between two durable writes. -/
structure Sound [Inhabited M] (st : NodusRaftStore P M) : Prop where
  inSync : st.InSync
  unbroken : Unbroken st.lastPurged st.log
  intact : Intact st.log st.appliedState

end NodusRaftStore

section Append

variable {log : OrdMap Nat (Entry P)} {purged : Option LogId} {start : Nat} {es : List (Entry P)}

/-- The index is the next one of the log; it is 0 for a first entry only. -/
def Next (purged : Option LogId) (log : OrdMap Nat (Entry P)) (start : Nat) : Prop :=
  (purged = none ∧ start = 0 ∧ ∀ n, log.get? n = none) ∨ log.IsNext (indexOr0 purged + 1) start

section

variable (h : Next purged log start)
include h

theorem Next.fresh (hn : log.get? n ≠ none) : n < start := by
  rcases h with ⟨-, -, hempty⟩ | h
  · exact absurd (hempty n) hn
  · exact h.fresh n hn

theorem Next.insert (e : Entry P) : Next purged (log.insert start e) (start + 1) := by
  rcases h with ⟨hnone, rfl, hempty⟩ | h
  · right
    rw [hnone]
    refine ⟨le_rfl, fun n hn => ?_, fun n hlo hlt => absurd hlt (not_lt.mpr hlo)⟩
    rw [OrdMap.get?_insert] at hn
    split at hn
    next hz => exact lt_succ_of_le hz.le
    · exact absurd (hempty n) hn
  · exact .inr (h.insert e)

theorem Next.gapFree : log.GapFree (indexOr0 purged + 1) := by
  rcases h with ⟨-, -, hempty⟩ | h
  · intro n k _ _ hk
    exact absurd (hempty k) hk
  · exact h.gapFree

theorem Next.above : purged = none ∨ indexOr0 purged < start := by
  rcases h with ⟨hnone, -, -⟩ | h
  · exact .inl hnone
  · exact .inr h.above

end

theorem unbroken_insertAll (habove : ∀ n, log.get? n ≠ none → purged = none ∨ indexOr0 purged < n)
    (h : Next purged log start) (hes : NodusRaftStore.Consecutive start es) :
    Unbroken purged (insertAll log es) ∧
      ∀ n e, log.get? n = some e → (insertAll log es).get? n = some e := by
  induction es generalizing log start with
  | nil => exact ⟨⟨habove, h.gapFree⟩, fun _ _ => id⟩
  | cons e es ih =>
    obtain ⟨rfl, hes⟩ := hes
    have habove' : ∀ n, (log.insert e.index e).get? n ≠ none →
        purged = none ∨ indexOr0 purged < n := by
      intro n hn
      rw [OrdMap.get?_insert] at hn
      split at hn
      next heq => exact heq ▸ h.above
      · exact habove n hn
    obtain ⟨hunbroken, hkept⟩ := ih habove' (h.insert e) hes
    refine ⟨hunbroken, fun n e' hn => hkept n e' ?_⟩
    have hlt : n < e.index := h.fresh (by rw [hn]; nofun)
    rw [OrdMap.get?_insert_of_ne hlt.ne]
    exact hn

end Append

namespace NodusRaftStore

variable {st st' : NodusRaftStore P M}

theorem exists_next (hindex : ∀ n e, st.log.get? n = some e → e.index = n)
    (hlog : Unbroken st.lastPurged st.log) (h : st.Follows es) :
    ∃ start, Next st.lastPurged st.log start ∧ Consecutive start es := by
  cases hlast : st.log.values.getLast? with
  | some e =>
    obtain ⟨k, hk, hmax⟩ := OrdMap.last_spec hlast
    have hne : st.log.get? k ≠ none := by
      rw [hk]
      nofun
    have hstate : st.getLogState.lastLogId = some e.logId := by
      rw [getLogState, hlast]
      rfl
    rw [Follows, hstate] at h
    refine ⟨k + 1, .inr ⟨?_, fun n hn => lt_succ_of_le (hmax n hn), fun n hlo hlt =>
      hlog.gapFree n k hlo (le_of_lt_succ hlt) hne⟩, ?_⟩
    · rcases hlog.above k hne with hnone | hlt
      · rw [hnone]
        exact succ_le_succ (zero_le k)
      · exact succ_le_succ hlt.le
    · rw [← hindex k e hk]
      exact h
  | none =>
    have hempty := OrdMap.getLast?_values_eq_none.mp hlast
    have hstate : st.getLogState.lastLogId = st.lastPurged := by
      rw [getLogState, hlast]
      rfl
    rw [Follows, hstate] at h
    cases hpurged : st.lastPurged with
    | some last =>
      rw [hpurged] at h
      exact ⟨last.index.toNat + 1, .inr ⟨le_rfl, fun n hn => absurd (hempty n) hn,
        fun n hlo hlt => absurd hlt (not_lt.mpr hlo)⟩, h⟩
    | none =>
      rw [hpurged] at h
      rcases h with h | h
      · exact ⟨0, .inl ⟨rfl, rfl, hempty⟩, h⟩
      exact ⟨1, .inr ⟨le_rfl, fun n hn => absurd (hempty n) hn,
        fun n hlo hlt => absurd hlt (not_lt.mpr hlo)⟩, h⟩

/-! ## Purging -/

def upTo (st : NodusRaftStore P M) (target : LogId) : List Nat :=
  (st.log.range 0 (target.index.toNat + 1)).map (·.1)

variable {target : LogId} {txnId : TxnId} {wall : UInt64} {writes : List (TxnId × UInt64)}

theorem mem_upTo : n ∈ st.upTo target ↔ st.log.get? n ≠ none ∧ n ≤ target.index.toNat := by
  rw [upTo, mem_map, Option.ne_none_iff_exists']
  constructor
  · rintro ⟨⟨k, e⟩, hk, rfl⟩
    obtain ⟨hget, -, hlt⟩ := OrdMap.mem_range.mp hk
    exact ⟨⟨e, hget⟩, le_of_lt_succ hlt⟩
  · rintro ⟨⟨e, hget⟩, hle⟩
    exact ⟨(n, e), OrdMap.mem_range.mpr ⟨hget, zero_le n, lt_succ_of_le hle⟩, rfl⟩

theorem sorted_upTo (target : LogId) : (st.upTo target).Pairwise (· < ·) :=
  pairwise_map.mpr (st.log.sorted.sublist filter_sublist)

theorem map_index_purgeIds (hindex : ∀ n e, st.log.get? n = some e → e.index = n) (target : LogId) :
    (st.purgeIds target).map (·.index.toNat) = (st.upTo target).take (purgeBatchSize + 1) := by
  rw [purgeIds, upTo, map_map, ← map_take]
  refine map_congr_left fun p hp => ?_
  obtain ⟨hget, -⟩ := OrdMap.mem_range.mp (mem_of_mem_take hp)
  exact hindex p.1 p.2 hget

theorem purgeEntries_spec (hindex : ∀ n e, st.log.get? n = some e → e.index = n) (target : LogId) :
    (∀ n, n ∈ (st.purgeEntries target).map (·.index.toNat) ↔
      st.log.get? n ≠ none ∧ n ≤ (st.purgeWatermark target).index.toNat) ∧
    (st.purgeWatermark target).index.toNat ≤ target.index.toNat ∧
    (st.purgeWatermark target = target ∨
      st.log.get? (st.purgeWatermark target).index.toNat ≠ none) := by
  have hmap := map_index_purgeIds hindex target
  have hlen : (st.purgeIds target).length = min (purgeBatchSize + 1) (st.upTo target).length := by
    rw [← length_map (f := fun id : LogId => id.index.toNat), hmap, length_take]
  by_cases hcomplete : (st.purgeIds target).length ≤ purgeBatchSize
  · have hmark : st.purgeWatermark target = target := if_pos (decide_eq_true hcomplete)
    have hentries : st.purgeEntries target = st.purgeIds target := by
      rw [purgeEntries, min_eq_left hcomplete, take_length]
    rw [hmark, hentries, hmap, take_of_length_le (by omega)]
    exact ⟨fun n => mem_upTo, le_rfl, .inl rfl⟩
  have hlong : purgeBatchSize < (st.upTo target).length := by omega
  have hentries : st.purgeEntries target = (st.purgeIds target).take purgeBatchSize := by
    rw [purgeEntries, Nat.min_eq_right (Nat.le_of_not_le hcomplete)]
  have hfront : (st.purgeEntries target).map (·.index.toNat) =
      (st.upTo target).take (purgeBatchSize - 1 + 1) := by
    rw [hentries, map_take, hmap, take_take]
    rfl
  -- the last id of a full batch is under the last of its keys
  obtain ⟨k, hk⟩ : ∃ k, (st.upTo target)[purgeBatchSize - 1]? = some k :=
    ⟨_, getElem?_eq_getElem (sub_lt_of_lt hlong)⟩
  have hlast : ((st.purgeEntries target).map (·.index.toNat))[purgeBatchSize - 1]? = some k := by
    rw [hfront, getElem?_take_of_succ]
    exact hk
  rw [getElem?_map, Option.map_eq_some_iff] at hlast
  obtain ⟨id, hid, rfl⟩ := hlast
  have hmark : st.purgeWatermark target = id := by
    rw [purgeWatermark, if_neg (by simpa [purgeComplete] using hcomplete), hid, Option.getD_some]
  have hmem := mem_upTo.mp (mem_of_getElem? hk)
  rw [hmark, hfront]
  refine ⟨fun n => ?_, hmem.2, .inr hmem.1⟩
  rw [mem_take_iff_le (sorted_upTo target) hk, mem_upTo]
  constructor
  · rintro ⟨⟨hn, -⟩, hle⟩
    exact ⟨hn, hle⟩
  · rintro ⟨hn, hle⟩
    exact ⟨⟨hn, hle.trans hmem.2⟩, hle⟩

/-! ## Soundness -/

theorem intact_of_get? {log : OrdMap Nat (Entry P)} {applied : AppliedState M}
    (hlog : Unbroken applied.lastPurged log)
    (h : ∀ id, applied.lastApplied = some id → id.index.toNat ≤ indexOr0 applied.lastPurged ∨
      (log.get? id.index.toNat).map (·.logId) = some id) : Intact log applied := by
  intro id hid
  rcases h id hid with hle | hget
  · exact .inl hle
  refine .inr ⟨fun n hlo hhi => hlog.gapFree n _ hlo hhi ?_, hget⟩
  intro hnone
  rw [hnone] at hget
  cases hget

variable [Inhabited M]

theorem Sound.index_eq (h : st.Sound) : ∀ n e, st.log.get? n = some e → e.index = n :=
  fun _ _ => h.inSync.index_eq

theorem sound_blank : (blank : NodusRaftStore P M).Sound := by
  refine ⟨inSync_blank, ⟨fun _ _ => .inl rfl, fun n k _ _ hk => absurd rfl hk⟩, ?_⟩
  intro id hid
  cases hid

section

variable (h : st.Sound)
include h

theorem Sound.append (hfollows : st.Follows entries)
    (habove : ∀ e ∈ entries, st.metaStore.Above wall (logKey e.logId.index))
    (hs : st.step (.append entries txnId wall) = some st') :
    st'.Sound ∧ st'.lastPurged = st.lastPurged ∧ st'.log = insertAll st.log entries := by
  obtain ⟨store, happend, hsync⟩ := h.inSync.appendToLog txnId wall entries habove
  obtain ⟨start, hnext, hcons⟩ := exists_next h.index_eq h.unbroken hfollows
  obtain ⟨hunbroken, hkept⟩ := unbroken_insertAll h.unbroken.above hnext hcons
  rw [step, happend] at hs
  cases hs
  refine ⟨⟨hsync, hunbroken, intact_of_get? hunbroken fun id hid => ?_⟩, rfl, rfl⟩
  refine (h.intact id hid).imp_right fun hget => ?_
  obtain ⟨e, he, hlog⟩ := Option.map_eq_some_iff.mp hget.2
  exact Option.map_eq_some_iff.mpr ⟨e, hkept _ e he, hlog⟩

theorem Sound.truncate (hlen : (st.conflictKeys logId).length ≤ writes.length)
    (happlied : ∀ id ∈ st.lastApplied, id.index < logId.index)
    (hstamp : st.DeletesStamped ((st.conflictKeys logId).zip writes))
    (hs : st.step (.truncate logId writes) = some st') :
    st'.Sound ∧ st'.lastPurged = st.lastPurged ∧ st'.log = st.log.cutFrom logId.index.toNat := by
  obtain ⟨store, hdelete, hstores⟩ := foldlM_deleteKey h.inSync (conflictKeys_lt h.inSync) hstamp
  have hcut : eraseAll st.log (((st.conflictKeys logId).zip writes).map (·.1)) =
      st.log.cutFrom logId.index.toNat := by
    refine OrdMap.ext_get fun n => ?_
    have hmem : n ∈ st.conflictKeys logId ↔ st.log.get? n ≠ none ∧ logId.index.toNat ≤ n := by
      rw [conflictKeys, mem_filter, OrdMap.mem_keys, decide_eq_true_iff]
    rw [get?_eraseAll, map_fst_zip_take, take_of_length_le hlen, OrdMap.get?_cutFrom]
    by_cases hn : n < logId.index.toNat
    · rw [if_pos hn, if_neg fun hin => absurd (hmem.mp hin).2 (not_le.mpr hn)]
    rw [if_neg hn]
    by_cases hget : st.log.get? n = none
    · rw [hget, ite_self]
    · rw [if_pos (hmem.mpr ⟨hget, not_lt.mp hn⟩)]
  rw [hcut] at hdelete hstores
  rw [step, deleteConflictLogsSince, hdelete] at hs
  cases hs
  have hunbroken : Unbroken st.lastPurged (st.log.cutFrom logId.index.toNat) := by
    refine ⟨fun n hn => h.unbroken.above n fun hnone => hn ?_, h.unbroken.gapFree.cutFrom _⟩
    rw [OrdMap.get?_cutFrom, hnone, ite_self]
  refine ⟨⟨hstores, hunbroken, intact_of_get? hunbroken fun id hid => ?_⟩, rfl, rfl⟩
  refine (h.intact id hid).imp_right fun hget => ?_
  have hlt : id.index.toNat < logId.index.toNat := UInt64.lt_iff_toNat_lt.mp (happlied id hid)
  rw [OrdMap.get?_cutFrom, if_pos hlt]
  exact hget.2

theorem Sound.applied {id : LogId} {membership : M}
    (hget : (st.log.get? id.index.toNat).map (·.logId) = some id)
    (habove : st.metaStore.Above wall raftAppliedKey)
    (hs : st.step (.applied id membership txnId wall) = some st') :
    st'.Sound ∧ st'.lastPurged = st.lastPurged ∧ st'.log = st.log := by
  obtain ⟨store, hsave, hstores⟩ :=
    Stores.saveApplied h.inSync txnId ⟨some id, membership, st.lastPurged⟩ habove
  rw [step, persistApplied, hsave] at hs
  cases hs
  refine ⟨⟨hstores, h.unbroken, intact_of_get? h.unbroken fun id' hid' => .inr ?_⟩, rfl, rfl⟩
  cases hid'
  exact hget

theorem Sound.reopen (txnId : TxnId) (wall : UInt64) :
    ∃ st', withKv st.metaStore.kv txnId wall = .ok st' ∧
      st'.Sound ∧ st'.lastPurged = st.lastPurged ∧ st'.log = st.log := by
  obtain ⟨vote, hopen⟩ := withKv_of_intact h.inSync h.intact txnId wall
  exact ⟨_, hopen, ⟨Stores.new h.inSync, h.unbroken, h.intact⟩, rfl, rfl⟩

theorem purgeRound_spec (hle : indexOr0 st.lastPurged ≤ target.index.toNat)
    (hids : ∀ id ∈ st.purgeEntries target, st.metaStore.Above wall (logKey id.index))
    (habove : st.metaStore.Above wall raftAppliedKey) :
    ∃ st', st.purgeRound target txnId wall = .ok (st', st.purgeComplete target) ∧ st'.Sound ∧
      indexOr0 st.lastPurged ≤ indexOr0 st'.lastPurged ∧
      indexOr0 st'.lastPurged ≤ target.index.toNat ∧
      ∀ n, indexOr0 st'.lastPurged < n → st'.log.get? n = st.log.get? n := by
  obtain ⟨hbatch, hmark, hreached⟩ := purgeEntries_spec h.index_eq target
  obtain ⟨store, hpurge, hstores⟩ := Stores.purgeBatch h.inSync txnId (st.purgeEntries target)
    ⟨st.lastApplied, st.lastMembership, some (st.purgeWatermark target)⟩ hids habove
  have hlog : eraseAll st.log ((st.purgeEntries target).map (·.index.toNat)) =
      st.log.dropBelow ((st.purgeWatermark target).index.toNat + 1) := by
    refine OrdMap.ext_get fun n => ?_
    rw [get?_eraseAll, OrdMap.get?_dropBelow]
    by_cases hn : n ≤ (st.purgeWatermark target).index.toNat
    · rw [if_neg (not_le.mpr (lt_succ_of_le hn))]
      by_cases hget : st.log.get? n = none
      · rw [hget, ite_self]
      · rw [if_pos ((hbatch n).mpr ⟨hget, hn⟩)]
    · rw [if_pos (succ_le_of_lt (not_le.mp hn)), if_neg fun hin => hn ((hbatch n).mp hin).2]
  have hraise : indexOr0 st.lastPurged ≤ (st.purgeWatermark target).index.toNat := by
    rcases hreached with heq | hpresent
    · rw [heq]
      exact hle
    rcases h.unbroken.above _ hpresent with hnone | hlt
    · rw [hnone]
      exact zero_le _
    · exact hlt.le
  have hunbroken : Unbroken (some (st.purgeWatermark target))
      (st.log.dropBelow ((st.purgeWatermark target).index.toNat + 1)) := by
    refine ⟨fun n hn => .inr ?_, OrdMap.gapFree_dropBelow.mpr
      (h.unbroken.gapFree.mono (succ_le_succ hraise))⟩
    rw [OrdMap.get?_dropBelow] at hn
    by_contra hlt
    exact hn (if_neg hlt)
  have hkept : ∀ n, (st.purgeWatermark target).index.toNat < n →
      (st.log.dropBelow ((st.purgeWatermark target).index.toNat + 1)).get? n = st.log.get? n :=
    fun n hn => OrdMap.get?_dropBelow.trans (if_pos hn)
  refine ⟨{ st with
    metaStore := store
    log := st.log.dropBelow ((st.purgeWatermark target).index.toNat + 1)
    lastPurged := some (st.purgeWatermark target) }, ?_, ⟨hlog ▸ hstores, hunbroken, ?_⟩, hraise,
    hmark, hkept⟩
  · rw [purgeRound, hpurge, ← hlog]
    rfl
  refine intact_of_get? hunbroken fun id hid => ?_
  rcases lt_or_ge (st.purgeWatermark target).index.toNat id.index.toNat with hlt | hge
  · right
    rw [hkept _ hlt]
    exact ((h.intact id hid).resolve_left (not_le.mpr (hraise.trans_lt hlt))).2
  · exact .inl hge

theorem purgeLoop_spec (hle : indexOr0 st.lastPurged ≤ target.index.toNat)
    (hstamp : st.PurgeStamped target writes) :
    ∃ st', st.purgeLoop target writes = .ok st' ∧ st'.Sound ∧
      indexOr0 st.lastPurged ≤ indexOr0 st'.lastPurged ∧
      indexOr0 st'.lastPurged ≤ target.index.toNat ∧
      ∀ n, indexOr0 st'.lastPurged < n → st'.log.get? n = st.log.get? n := by
  induction writes generalizing st with
  | nil => exact ⟨st, rfl, h, le_rfl, hle, fun _ _ => rfl⟩
  | cons w ws ih =>
    obtain ⟨⟨hids, habove⟩, hrest⟩ := hstamp
    obtain ⟨st₁, hround, hsound, hraise, hmark, hkept⟩ := purgeRound_spec h hle hids habove
    rw [hround] at hrest
    cases hcomplete : st.purgeComplete target with
    | true =>
      refine ⟨st₁, ?_, hsound, hraise, hmark, hkept⟩
      rw [purgeLoop, hround, hcomplete]
      rfl
    | false =>
      rw [hcomplete] at hrest
      obtain ⟨st₂, hloop, hsound₂, hraise₂, hmark₂, hkept₂⟩ := ih hsound hmark hrest
      refine ⟨st₂, ?_, hsound₂, hraise.trans hraise₂, hmark₂, fun n hn => ?_⟩
      · rw [purgeLoop, hround, hcomplete]
        exact hloop
      · rw [hkept₂ n hn, hkept n (hraise₂.trans_lt hn)]

theorem Sound.purge (hstamp : st.purged target = true ∨ st.PurgeStamped target writes)
    (hs : st.step (.purge target writes) = some st') :
    st'.Sound ∧ indexOr0 st.lastPurged ≤ indexOr0 st'.lastPurged ∧
      indexOr0 st'.lastPurged ≤ max (indexOr0 st.lastPurged) target.index.toNat ∧
      ∀ n, target.index.toNat < n → st'.log.get? n = st.log.get? n := by
  by_cases hpurged : st.purged target = true
  · rw [step, purgeLogPrefix, if_pos hpurged] at hs
    cases hs
    exact ⟨h, le_rfl, le_max_left _ _, fun _ _ => rfl⟩
  have hle : indexOr0 st.lastPurged ≤ target.index.toNat := by
    unfold purged at hpurged
    cases hlast : st.lastPurged with
    | none => exact zero_le _
    | some id =>
      rw [hlast] at hpurged
      have hlt : ¬ target.index ≤ id.index := by simpa using hpurged
      exact (UInt64.lt_iff_toNat_lt.mp (UInt64.not_le.mp hlt)).le
  obtain ⟨st₁, hloop, hsound, hraise, hmark, hkept⟩ :=
    purgeLoop_spec h hle (hstamp.resolve_left hpurged)
  rw [step, purgeLogPrefix, if_neg hpurged, hloop] at hs
  cases hs
  exact ⟨hsound, hraise, hmark.trans (le_max_right _ _), fun n hn =>
    hkept n (hmark.trans_lt hn)⟩

end

end NodusRaftStore

/-! ## Runs -/

/-- What a step has to leave of a log: everything but what it appends over,
truncates or was asked to purge. -/
def LogLabel.survivors (log : OrdMap Nat (Entry P)) : LogLabel P M → OrdMap Nat (Entry P)
  | append entries _ _ => insertAll log entries
  | truncate logId _ => log.cutFrom logId.index.toNat
  | purge target _ => log.dropBelow (target.index.toNat + 1)
  | applied .. | reopen .. => log

def LogLabel.raise (watermark : Nat) : LogLabel P M → Nat
  | purge target _ => max watermark target.index.toNat
  | _ => watermark

namespace NodusRaftStore

theorem raise_mono {a b : Nat} (h : a ≤ b) {label : LogLabel P M} :
    label.raise a ≤ label.raise b := by
  cases label with
  | purge target writes => exact max_le_max h le_rfl
  | append _ _ _ | truncate _ _ | applied _ _ _ _ | reopen _ _ => exact h

variable [Inhabited M] {st st' : NodusRaftStore P M}

/-- The first log has the entries of the second. -/
def Has (log required : OrdMap Nat (Entry P)) : Prop :=
  ∀ n e, required.get? n = some e → log.get? n = some e

theorem Has.insertAll {log required : OrdMap Nat (Entry P)} (h : Has log required)
    (es : List (Entry P)) : Has (insertAll log es) (insertAll required es) := by
  intro n e he
  rw [get?_insertAll, Option.or_eq_some_iff] at he ⊢
  exact he.imp_right fun hright => ⟨hright.1, h n e hright.2⟩

theorem Has.cutFrom {log required : OrdMap Nat (Entry P)} (h : Has log required) (k : Nat) :
    Has (log.cutFrom k) (required.cutFrom k) := by
  intro n e he
  rw [OrdMap.get?_cutFrom] at he ⊢
  obtain ⟨hlt, he⟩ := Option.ite_none_right_eq_some.mp he
  rw [if_pos hlt]
  exact h n e he

theorem Sound.step (h : st.Sound) (hok : st.Steady label) (hs : st.step label = some st') :
    st'.Sound ∧ indexOr0 st.lastPurged ≤ indexOr0 st'.lastPurged ∧
      indexOr0 st'.lastPurged ≤ label.raise (indexOr0 st.lastPurged) ∧
      ∀ required, Has st.log required → Has st'.log (label.survivors required) := by
  cases label with
  | append entries txnId wall =>
    obtain ⟨hsound, hpurged, hlog⟩ := h.append hok.1 hok.2 hs
    rw [hpurged, hlog]
    exact ⟨hsound, le_rfl, le_rfl, fun _ hhas => hhas.insertAll entries⟩
  | truncate logId writes =>
    obtain ⟨hsound, hpurged, hlog⟩ := h.truncate hok.1 hok.2.1 hok.2.2 hs
    rw [hpurged, hlog]
    exact ⟨hsound, le_rfl, le_rfl, fun _ hhas => hhas.cutFrom _⟩
  | purge target writes =>
    obtain ⟨hsound, hraise, hmark, hkept⟩ := h.purge hok hs
    refine ⟨hsound, hraise, hmark, fun required hhas n e he => ?_⟩
    rw [LogLabel.survivors, OrdMap.get?_dropBelow] at he
    obtain ⟨hlt, he⟩ := Option.ite_none_right_eq_some.mp he
    rw [hkept n hlt]
    exact hhas n e he
  | applied id membership txnId wall =>
    obtain ⟨hsound, hpurged, hlog⟩ := h.applied hok.1 hok.2 hs
    rw [hpurged, hlog]
    exact ⟨hsound, le_rfl, le_rfl, fun _ hhas => hhas⟩
  | reopen txnId wall =>
    obtain ⟨st₁, hopen, hsound, hpurged, hlog⟩ := h.reopen txnId wall
    rw [NodusRaftStore.step, hopen] at hs
    cases hs
    rw [hpurged, hlog]
    exact ⟨hsound, le_rfl, le_rfl, fun _ hhas => hhas⟩

/-- A crash at the end of any steady run, the last operation of which may have
got through some of its batches only: the node opens, its log has no gap above
the watermark, the watermark lies between the old one and the targets of the
purges, and every entry is there that no purge or truncation covers. -/
theorem log_recovered (h : st.Sound) {labels : List (LogLabel P M)}
    (hr : Run (Guarded (fun st label st' => NodusRaftStore.step st label = some st') Steady) st
      labels st') (txnId : TxnId) (wall : UInt64) :
    ∃ r, withKv st'.metaStore.kv txnId wall = .ok r ∧ Unbroken r.lastPurged r.log ∧
      indexOr0 st.lastPurged ≤ indexOr0 r.lastPurged ∧
      indexOr0 r.lastPurged ≤ labels.foldl LogLabel.raise (indexOr0 st.lastPurged) ∧
      Has r.log (labels.foldl LogLabel.survivors st.log) := by
  have hrun : st'.Sound ∧ indexOr0 st.lastPurged ≤ indexOr0 st'.lastPurged ∧
      indexOr0 st'.lastPurged ≤ labels.foldl LogLabel.raise (indexOr0 st.lastPurged) ∧
      Has st'.log (labels.foldl LogLabel.survivors st.log) := by
    induction hr with
    | nil => exact ⟨h, le_rfl, le_rfl, fun _ _ => id⟩
    | snoc _ ha ih =>
      obtain ⟨hsound, hlo, hhi, hhas⟩ := ih
      obtain ⟨hsound', hlo', hhi', hhas'⟩ := hsound.step ha.1 ha.2
      rw [foldl_append, foldl_append]
      refine ⟨hsound', hlo.trans hlo', hhi'.trans ?_, hhas' _ hhas⟩
      exact raise_mono hhi
  obtain ⟨hsound, hlo, hhi, hhas⟩ := hrun
  obtain ⟨r, hopen, hsoundr, hpurged, hlog⟩ := hsound.reopen txnId wall
  refine ⟨r, hopen, hsoundr.unbroken, ?_, ?_, ?_⟩
  · rw [hpurged]
    exact hlo
  · rw [hpurged]
    exact hhi
  · rw [hlog]
    exact hhas

/-- A log that is applied, purged up to index 2, opened again on an earlier clock
and extended. -/
def purgedRun : List (LogLabel Unit Unit) :=
  [.append threeEntries 1 100, .applied ⟨1, 1, 3⟩ () 2 101, .purge ⟨1, 1, 2⟩ [(3, 102)],
    .reopen 4 50, .append [⟨⟨1, 1, 4⟩, ()⟩] 5 60]

theorem log_recovered_purgedRun :
    ∃ st' r : NodusRaftStore Unit Unit,
      Run (Guarded (fun st label st' => NodusRaftStore.step st label = some st') Steady) blank
        purgedRun st' ∧ withKv st'.metaStore.kv 6 70 = .ok r ∧ Unbroken r.lastPurged r.log ∧
      indexOr0 r.lastPurged ≤ 2 ∧ Has r.log (purgedRun.foldl LogLabel.survivors .empty) := by
  obtain ⟨st', hst'⟩ : ∃ st', execOk NodusRaftStore.step Steady blank purgedRun = some st' := by
    decide +kernel
  have hr := run_of_execOk hst'
  obtain ⟨r, hopen, hunbroken, -, hhi, hhas⟩ := log_recovered sound_blank hr 6 70
  exact ⟨st', r, hr, hopen, hunbroken, hhi, hhas⟩

/-- A log that is applied, opened again on an earlier clock and purged up to
index 2. -/
def lostRun : List (LogLabel Unit Unit) :=
  [.append threeEntries 1 100, .applied ⟨1, 1, 3⟩ () 2 200, .reopen 3 140,
    .purge ⟨1, 1, 2⟩ [(4, 150)]]

/-- The tombstones of the purge count and its applied state does not, so that
recovery finds the applied entries missing and purges all of them: index 3 too. -/
theorem purged_log_lost :
    ∃ st' r : NodusRaftStore Unit Unit,
      Run (fun st label st' => NodusRaftStore.step st label = some st') blank lostRun st' ∧
      withKv st'.metaStore.kv 5 160 = .ok r ∧ r.lastPurged = some ⟨1, 1, 3⟩ ∧
      r.log.get? 3 = none := by
  obtain ⟨st', hst', r, hr, hlost⟩ : ∃ st', exec NodusRaftStore.step blank lostRun = some st' ∧
      ∃ r : NodusRaftStore Unit Unit, withKv st'.metaStore.kv 5 160 = .ok r ∧
        r.lastPurged = some ⟨1, 1, 3⟩ ∧ r.log.get? 3 = none := by
    decide +kernel
  exact ⟨st', r, run_of_exec hst', hr, hlost⟩

end NodusRaftStore

end NodusDb.Raft
