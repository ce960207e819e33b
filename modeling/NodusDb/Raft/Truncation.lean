import NodusDb.Raft.LogStore

/-!
# Truncating a conflicting suffix

`delete_conflict_logs_since` deletes a suffix from its front, each entry in a transaction of its
own. A crash in between leaves a hole, which recovery closes only in the applied part of the log.

* `truncation_recovers_iff`: the crash points after which no index is missing.
* `truncation_leaves_hole`: a crash point after which one is.
-/

namespace NodusDb.Raft

open List

variable {P M : Type}

namespace NodusRaftStore

/-- Every index above the watermark and up to the last log id is in the log. -/
def Present (st : NodusRaftStore P M) : Prop :=
  ∀ last, st.getLogState.lastLogId = some last → ∀ n,
    indexOr0 st.getLogState.lastPurgedLogId < n → n ≤ last.index.toNat → st.log.get? n ≠ none

/-- No deletion is stamped below the entry it deletes. -/
def DeletesStamped (st : NodusRaftStore P M) : List (Nat × TxnId × UInt64) → Prop
  | [] => True
  | w :: ws => st.metaStore.Above w.2.2 (logKey (UInt64.ofNat w.1)) ∧
    match st.deleteKey w.1 w.2.1 w.2.2 with
    | .ok st => DeletesStamped st ws
    | .error _ => True

instance decidableDeletesStamped (st : NodusRaftStore P M) :
    (ws : List (Nat × TxnId × UInt64)) → Decidable (st.DeletesStamped ws)
  | [] => isTrue trivial
  | w :: ws =>
    match h : st.deleteKey w.1 w.2.1 w.2.2 with
    | .ok st' =>
      have := decidableDeletesStamped st' ws
      decidable_of_iff (st.metaStore.Above w.2.2 (logKey (UInt64.ofNat w.1)) ∧
        st'.DeletesStamped ws) (by rw [DeletesStamped, h])
    | .error _ =>
      decidable_of_iff (st.metaStore.Above w.2.2 (logKey (UInt64.ofNat w.1)))
        (by rw [DeletesStamped, h]; exact (and_iff_left trivial).symm)

theorem present_iff_gapFree {st : NodusRaftStore P M}
    (hindex : ∀ n e, st.log.get? n = some e → e.index = n) :
    st.Present ↔ st.log.GapFree (indexOr0 st.lastPurged + 1) := by
  cases hlast : st.log.values.getLast? with
  | none =>
    have hempty := OrdMap.getLast?_values_eq_none.mp hlast
    constructor
    · intro _ n k _ _ hk
      exact absurd (hempty k) hk
    · intro _ last hl n hlo hhi
      simp only [getLogState, hlast, Option.map_none, Option.none_or] at hl hlo
      rw [hl] at hlo
      exact absurd hhi (not_le.mpr hlo)
  | some e =>
    obtain ⟨k, hk, hmax⟩ := OrdMap.last_spec hlast
    have hstate : st.getLogState.lastLogId = some e.logId := by
      rw [getLogState, hlast]
      rfl
    constructor
    · intro h n j hlo hnj hj
      refine h _ hstate n hlo ?_
      exact (hnj.trans (hmax j hj)).trans_eq (hindex k e hk).symm
    · intro h last hl n hlo hhi
      rw [hstate] at hl
      cases hl
      refine h n k hlo (hhi.trans_eq (hindex k e hk)) ?_
      rw [hk]
      nofun

section Deletes

variable [Inhabited M] {st : NodusRaftStore P M}

theorem foldlM_deleteKey (h : st.InSync) (hkeys : ∀ w ∈ ws, w.1 < 2 ^ 64)
    (hstamp : st.DeletesStamped ws) :
    ∃ store, ws.foldlM (fun st w => st.deleteKey w.1 w.2.1 w.2.2) st =
        .ok { st with metaStore := store, log := eraseAll st.log (ws.map (·.1)) } ∧
      Stores store (eraseAll st.log (ws.map (·.1))) st.appliedState := by
  induction ws generalizing st with
  | nil => exact ⟨st.metaStore, rfl, h⟩
  | cons w ws ih =>
    obtain ⟨habove, hrest⟩ := hstamp
    have hw : (UInt64.ofNat w.1).toNat = w.1 := UInt64.toNat_ofNat_of_lt' (hkeys w mem_cons_self)
    obtain ⟨store, hdelete, hstore⟩ := Stores.deleteEntry h w.2.1 _ habove
    rw [hw] at hstore
    have hkey : st.deleteKey w.1 w.2.1 w.2.2 =
        .ok { st with metaStore := store, log := st.log.erase w.1 } := by
      rw [deleteKey, hdelete]
      rfl
    rw [hkey] at hrest
    obtain ⟨store', hfold, hstore'⟩ := ih (show InSync { st with
      metaStore := store
      log := st.log.erase w.1 } from hstore) (fun v hv => hkeys v (mem_cons_of_mem w hv)) hrest
    refine ⟨store', ?_, hstore'⟩
    rw [foldlM_cons, hkey]
    exact hfold

theorem conflictKeys_lt (h : st.InSync) :
    ∀ w ∈ (st.conflictKeys logId).zip writes, w.1 < 2 ^ 64 := by
  intro w hw
  have hmem := (mem_filter.mp (of_mem_zip hw).1).1
  obtain ⟨e, he⟩ := Option.ne_none_iff_exists'.mp (OrdMap.mem_keys.mp hmem)
  rw [← h.index_eq he]
  exact e.logId.index.toNat_lt

omit [Inhabited M] in
theorem mem_take_conflictKeys (hlog : Unbroken st.lastPurged st.log)
    (hi : st.log.get? logId.index.toNat ≠ none) (c n : Nat) :
    n ∈ (st.conflictKeys logId).take c ↔
      logId.index.toNat ≤ n ∧ n < logId.index.toNat + c ∧ st.log.get? n ≠ none := by
  have hne : st.log.values.getLast? ≠ none := fun hnone =>
    hi (OrdMap.getLast?_values_eq_none.mp hnone _)
  obtain ⟨e, he⟩ := Option.ne_none_iff_exists'.mp hne
  obtain ⟨last, hlast, hmax⟩ := OrdMap.last_spec he
  have hpresent : ∀ n, logId.index.toNat ≤ n → (st.log.get? n ≠ none ↔ n ≤ last) := by
    intro n hn
    refine ⟨hmax n, fun hle => ?_⟩
    -- index 0 is below every gap-free part and needs its own argument
    rcases Nat.eq_or_lt_of_le hn with rfl | hlt
    · exact hi
    refine hlog.gapFree n last ?_ hle (by rw [hlast]; nofun)
    rcases hlog.above _ hi with hnone | habove
    · rw [hnone]
      exact Nat.succ_le_of_lt (Nat.zero_lt_of_lt hlt)
    · exact (Nat.succ_le_of_lt habove).trans hn
  have hkeys : st.conflictKeys logId =
      range' logId.index.toNat (last + 1 - logId.index.toNat) := by
    refine eq_of_sorted_of_mem (r := (· < ·)) ?_ pairwise_lt_range' fun n => ?_
    · exact (pairwise_map.mpr st.log.sorted).sublist filter_sublist
    rw [conflictKeys, mem_filter, OrdMap.mem_keys, decide_eq_true_iff, mem_range'_1]
    constructor
    · rintro ⟨hn, hle⟩
      have := (hpresent n hle).mp hn
      omega
    · rintro ⟨hle, hlt⟩
      exact ⟨(hpresent n hle).mpr (by omega), hle⟩
  rw [hkeys, mem_take_iff_getElem]
  constructor
  · rintro ⟨j, hj, rfl⟩
    rw [length_range'] at hj
    rw [getElem_range'_1]
    exact ⟨by omega, by omega, (hpresent _ (by omega)).mpr (by omega)⟩
  · rintro ⟨hle, hlt, hn⟩
    have hlast := (hpresent n hle).mp hn
    refine ⟨n - logId.index.toNat, by rw [length_range']; omega, ?_⟩
    rw [getElem_range'_1]
    omega

end Deletes

end NodusRaftStore

section Hole

variable {log log' : OrdMap Nat (Entry P)} {purged : Option LogId} {i c : Nat}

/-- What is left of a log after `c` deletions from index `i` on. -/
def Hole (log log' : OrdMap Nat (Entry P)) (i c : Nat) : Prop :=
  ∀ n, log'.get? n = if i ≤ n ∧ n < i + c then none else log.get? n

/-- No index of a hole is missing: there is no hole, nothing behind it, or no
index in it but 0. -/
def Harmless (log : OrdMap Nat (Entry P)) (i c : Nat) : Prop :=
  c = 0 ∨ (∀ n, log.get? n ≠ none → n < i + c) ∨ i + c ≤ 1

theorem Hole.gapFree (h : Hole log log' i c) (hlog : Unbroken purged log)
    (hc : Harmless log i c) : log'.GapFree (indexOr0 purged + 1) := by
  intro n k hlo hnk hk
  rw [h] at hk ⊢
  have hk' : ¬ (i ≤ k ∧ k < i + c) := fun hin => hk (if_pos hin)
  rw [if_neg hk'] at hk
  rw [if_neg]
  · exact hlog.gapFree n k hlo hnk hk
  rintro ⟨hin, hnc⟩
  rcases hc with rfl | hall | hle
  · omega
  · exact hk' ⟨hin.trans hnk, hall k hk⟩
  · omega

theorem Hole.not_gapFree (h : Hole log log' i c) (hc : ¬ Harmless log i c) (hlo : lo ≤ i + c - 1) :
    ¬ log'.GapFree lo := by
  intro hgap
  simp only [Harmless, not_or, not_forall, not_lt] at hc
  obtain ⟨hne, ⟨m, hm, hle⟩, htwo⟩ := hc
  refine hgap (i + c - 1) m hlo (by omega) ?_ ?_
  · rw [h, if_neg (by omega)]
    exact hm
  · rw [h, if_pos (by omega)]

theorem Hole.gapFree_above (h : Hole log log' i c) (hlog : Unbroken purged log) (hlo : i + c ≤ lo)
    (hpurged : indexOr0 purged + 1 ≤ lo) : log'.GapFree lo := by
  intro n k hn hnk hk
  rw [h, if_neg (by omega)] at hk ⊢
  exact hlog.gapFree n k (hpurged.trans hn) hnk hk

theorem last_above (hlog : Unbroken purged log) (hi : log.get? i ≠ none)
    (hc : ¬ Harmless log i c) : indexOr0 purged + 1 ≤ i + c - 1 := by
  simp only [Harmless, not_or] at hc
  rcases hlog.above i hi with hnone | hlt
  · rw [hnone, indexOr0, Option.map_none, Option.getD_none]
    omega
  · omega

end Hole

/-- After a crash behind `c` deletions, the reopened log misses no index exactly
when the hole is harmless or recovery counts all of it as purged. -/
theorem reconciled_gapFree_iff {log log' : OrdMap Nat (Entry P)} {applied : AppliedState M}
    (h : Hole log log' i c) (hlog : Unbroken applied.lastPurged log) (hi : log.get? i ≠ none) :
    (reconcileTornRecovery log' applied).2.1.GapFree
        (indexOr0 (reconcileTornRecovery log' applied).2.2.lastPurged + 1) ↔
      Harmless log i c ∨ ∃ id, applied.lastApplied = some id ∧ i + c ≤ id.index.toNat + 1 := by
  by_cases hharm : Harmless log i c
  · refine iff_of_true ?_ (.inl hharm)
    have hgap := h.gapFree hlog hharm
    by_cases hintact : Intact log' applied
    · rw [reconcileTornRecovery_of_intact hintact]
      exact hgap
    obtain ⟨id, -, hlt, heq⟩ := reconcileTornRecovery_of_torn hintact
    rw [heq]
    exact OrdMap.gapFree_dropBelow.mpr (hgap.mono (Nat.succ_le_succ hlt.le))
  have hlast := last_above hlog hi hharm
  have hhole : log'.get? (i + c - 1) = none := by
    rw [h, if_pos]
    simp only [Harmless, not_or] at hharm
    omega
  rw [or_iff_right hharm]
  by_cases hintact : Intact log' applied
  · rw [reconcileTornRecovery_of_intact hintact]
    refine iff_of_false (h.not_gapFree hharm hlast) ?_
    rintro ⟨id, hid, hle⟩
    rcases hintact id hid with hpurged | ⟨hall, -⟩
    · omega
    · exact hall (i + c - 1) hlast (by omega) hhole
  obtain ⟨id, hid, hlt, heq⟩ := reconcileTornRecovery_of_torn hintact
  rw [heq]
  show (log'.dropBelow (id.index.toNat + 1)).GapFree (id.index.toNat + 1) ↔ _
  refine OrdMap.gapFree_dropBelow.trans ⟨fun hgap => ⟨id, hid, ?_⟩, ?_⟩
  · by_contra hgt
    exact h.not_gapFree hharm (by omega) hgap
  rintro ⟨id', hid', hle⟩
  rw [hid] at hid'
  cases hid'
  exact h.gapFree_above hlog hle (Nat.succ_le_succ hlt.le)

theorem get?_of_reconciled {log : OrdMap Nat (Entry P)} {applied : AppliedState M}
    (h : (reconcileTornRecovery log applied).2.1.get? n = some e) : log.get? n = some e := by
  by_cases hintact : Intact log applied
  · rw [reconcileTornRecovery_of_intact hintact] at h
    exact h
  obtain ⟨id, -, -, heq⟩ := reconcileTornRecovery_of_torn hintact
  rw [heq] at h
  exact (Option.ite_none_right_eq_some.mp (OrdMap.get?_dropBelow ▸ h)).2

namespace NodusRaftStore

variable [Inhabited M]

/-- A truncation that crashes after any of its deletions: when the node is opened
again, no index is missing exactly if nothing or everything of the suffix was
deleted, only index 0 was, or all that was deleted had been applied. -/
theorem truncation_recovers_iff (st : NodusRaftStore P M) (hsync : st.InSync)
    (hlog : Unbroken st.lastPurged st.log) (logId : LogId)
    (hi : st.log.get? logId.index.toNat ≠ none) (writes : List (TxnId × UInt64))
    (hstamp : st.DeletesStamped ((st.conflictKeys logId).zip writes)) (txnId : TxnId)
    (wall : UInt64) :
    ∃ st' r, st.deleteConflictLogsSince logId writes = .ok st' ∧
      withKv st'.metaStore.kv txnId wall = .ok r ∧
      (r.Present ↔ Harmless st.log logId.index.toNat writes.length ∨
        ∃ id, st.lastApplied = some id ∧
          logId.index.toNat + writes.length ≤ id.index.toNat + 1) := by
  have hfst := map_fst_zip_take (st.conflictKeys logId) writes
  obtain ⟨store, hdelete, hstores⟩ := foldlM_deleteKey hsync (conflictKeys_lt hsync) hstamp
  obtain ⟨r, hr, hrlog, hrpurged⟩ := withKv_spec hstores txnId wall
  refine ⟨_, r, hdelete, hr, ?_⟩
  have hhole : Hole st.log (eraseAll st.log (((st.conflictKeys logId).zip writes).map (·.1)))
      logId.index.toNat writes.length := by
    intro n
    rw [get?_eraseAll, hfst]
    simp only [mem_take_conflictKeys hlog hi]
    by_cases hn : st.log.get? n = none
    · simp [hn]
    · simp [hn]
  rw [present_iff_gapFree, hrlog, hrpurged]
  · exact reconciled_gapFree_iff hhole hlog hi
  · intro n e he
    exact hstores.index_eq (get?_of_reconciled (hrlog ▸ he))

def threeEntries : List (Entry Unit) := [⟨⟨1, 1, 1⟩, ()⟩, ⟨⟨1, 1, 2⟩, ()⟩, ⟨⟨1, 1, 3⟩, ()⟩]

def threeStore : NodusRaftStore Unit Unit :=
  ((blank.appendToLog threeEntries 1 100).toOption).getD blank

theorem isNext_threeEntries : (insertAll .empty threeEntries).IsNext 1 4 :=
  have hempty : (OrdMap.empty : OrdMap Nat (Entry Unit)).IsNext 1 1 :=
    ⟨le_rfl, fun _ h => absurd rfl h, fun _ hlo hlt => absurd hlo (not_le.mpr hlt)⟩
  ((hempty.insert _).insert _).insert _

theorem inSync_threeStore :
    threeStore.InSync ∧ threeStore.log = insertAll .empty threeEntries ∧
      threeStore.lastPurged = none := by
  obtain ⟨store, hst, hsync⟩ := inSync_blank.appendToLog (P := Unit) (M := Unit) 1 100 threeEntries
    (by decide +kernel)
  rw [threeStore, hst]
  exact ⟨hsync, rfl, rfl⟩

/-- A truncation that ends recovers, also when its clock goes back a little. -/
theorem truncation_recovers_iff_threeStore :
    ∃ st' r : NodusRaftStore Unit Unit,
      threeStore.deleteConflictLogsSince ⟨1, 1, 2⟩ [(2, 101), (3, 90)] = .ok st' ∧
      withKv st'.metaStore.kv 4 80 = .ok r ∧ r.Present := by
  obtain ⟨hsync, hlog, hpurged⟩ := inSync_threeStore
  have hunbroken : Unbroken threeStore.lastPurged threeStore.log := by
    rw [hlog, hpurged]
    exact ⟨fun _ _ => .inl rfl, isNext_threeEntries.gapFree⟩
  obtain ⟨st', r, hdelete, hr, hiff⟩ := truncation_recovers_iff threeStore hsync hunbroken
    ⟨1, 1, 2⟩ (by decide +kernel) [(2, 101), (3, 90)] (by decide +kernel) 4 80
  refine ⟨st', r, hdelete, hr, hiff.mpr (.inl (.inr (.inl ?_)))⟩
  rw [hlog]
  exact isNext_threeEntries.fresh

/-- The suffix from index 2 on is deleted and the node crashes after the first
deletion: the log ends at index 3 and has no index 2. -/
theorem truncation_leaves_hole :
    ∃ st' r : NodusRaftStore Unit Unit,
      threeStore.deleteConflictLogsSince ⟨1, 1, 2⟩ [(2, 101)] = .ok st' ∧
      withKv st'.metaStore.kv 3 102 = .ok r ∧
      r.getLogState = ⟨none, some ⟨1, 1, 3⟩⟩ ∧ r.log.get? 2 = none := by
  obtain ⟨st', hst', r, hr, hhole⟩ :
      ∃ st', threeStore.deleteConflictLogsSince ⟨1, 1, 2⟩ [(2, 101)] = .ok st' ∧
        ∃ r : NodusRaftStore Unit Unit, withKv st'.metaStore.kv 3 102 = .ok r ∧
          r.getLogState = ⟨none, some ⟨1, 1, 3⟩⟩ ∧ r.log.get? 2 = none := by
    decide +kernel
  exact ⟨st', r, hst', hr, hhole⟩

end NodusRaftStore

end NodusDb.Raft
