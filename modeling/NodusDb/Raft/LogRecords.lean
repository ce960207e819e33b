import NodusDb.Raft.MetaStore

/-!
# The stored log

The log of a node is the set of entry records of its meta store. This module
says what `load_log` reads from a store, and what each write of the store does
to the log and the applied state that are read back, when it is stamped above
the records it replaces.
-/

namespace NodusDb.Raft

open List RaftMetaStore

variable {P M : Type}

/-! ## Keys -/

theorem logKey_inj (h : logKey a = logKey b) : a = b :=
  toBeBytes_inj (append_cancel_left h)

@[simp] theorem logKey_eq_iff : logKey a = logKey b ↔ a = b :=
  ⟨logKey_inj, congrArg logKey⟩

theorem logKey_mem_range (index : UInt64) :
    raftLogPrefix ≤ logKey index ∧ logKey index < raftLogEnd := by
  have hstart : logKey index = ascii "\x00raft\x00log" ++ (0 :: toBeBytes index) := by
    rw [logKey, show raftLogPrefix = ascii "\x00raft\x00log" ++ [0] from rfl, append_assoc]
    rfl
  constructor
  · rw [hstart, show raftLogPrefix = ascii "\x00raft\x00log" ++ [0] from rfl]
    refine (append_left_lt ?_).le
    rw [cons_lt_cons_iff]
    refine .inr ⟨rfl, ?_⟩
    have hlen : (toBeBytes index).length = 8 := length_digits _ _ _ _
    cases hb : toBeBytes index with
    | nil =>
      rw [hb] at hlen
      cases hlen
    | cons b bs => exact nil_lt_cons b bs
  · rw [hstart, show raftLogEnd = ascii "\x00raft\x00log" ++ [1] from rfl]
    refine append_left_lt ?_
    rw [cons_lt_cons_iff]
    exact .inl (by decide)

theorem raftAppliedKey_ne_logKey (index : UInt64) : raftAppliedKey ≠ logKey index := by
  intro heq
  have hlen := congrArg length heq
  rw [length_logKey] at hlen
  exact absurd hlen (by decide)

theorem eq_entry_of_mem_range {r : MetaRecord P M} (hlo : raftLogPrefix ≤ r.key)
    (hhi : r.key < raftLogEnd) : ∃ e, r = .entry e := by
  cases r with
  | entry e => exact ⟨e, rfl⟩
  | vote v | snapshotMeta m =>
    rw [MetaRecord.key] at hhi
    exact absurd hhi (by decide)
  | applied a =>
    rw [MetaRecord.key] at hlo
    exact absurd hlo (by decide)

/-! ## Logs -/

def lastAt (n : Nat) : List (Entry P) → Option (Entry P)
  | [] => none
  | e :: es => (lastAt n es).or (if e.index = n then some e else none)

theorem lastAt_eq_none : lastAt n es = none ↔ ∀ e ∈ es, e.index ≠ n := by
  induction es with
  | nil => simp [lastAt]
  | cons e es ih => simp [lastAt, ih, and_comm]

theorem mem_of_lastAt (h : lastAt n es = some e) : e ∈ es ∧ e.index = n := by
  induction es with
  | nil => cases h
  | cons a es ih =>
    rw [lastAt, Option.or_eq_some_iff] at h
    rcases h with h | ⟨-, h⟩
    · exact ⟨mem_cons_of_mem a (ih h).1, (ih h).2⟩
    obtain ⟨hn, ha⟩ := Option.ite_none_right_eq_some.mp h
    cases ha
    exact ⟨mem_cons_self, hn⟩

/-- Put entries into a log, each under its own index. -/
def insertAll (log : OrdMap Nat (Entry P)) (es : List (Entry P)) : OrdMap Nat (Entry P) :=
  es.foldl (fun log e => log.insert e.index e) log

theorem get?_insertAll (log : OrdMap Nat (Entry P)) (es : List (Entry P)) (n : Nat) :
    (insertAll log es).get? n = (lastAt n es).or (log.get? n) := by
  induction es generalizing log with
  | nil => rfl
  | cons e es ih =>
    rw [insertAll, foldl_cons, ← insertAll, ih, OrdMap.get?_insert, lastAt]
    by_cases hn : n = e.index
    · rw [if_pos hn, if_pos hn.symm, Option.or_assoc, Option.some_or]
    · rw [if_neg hn, if_neg (Ne.symm hn), Option.or_none]

def eraseAll (log : OrdMap Nat (Entry P)) (ids : List Nat) : OrdMap Nat (Entry P) :=
  ids.foldl OrdMap.erase log

theorem get?_eraseAll (log : OrdMap Nat (Entry P)) (ids : List Nat) (n : Nat) :
    (eraseAll log ids).get? n = if n ∈ ids then none else log.get? n := by
  induction ids generalizing log with
  | nil => rfl
  | cons i ids ih =>
    rw [eraseAll, foldl_cons, ← eraseAll, ih, OrdMap.get?_erase]
    by_cases hn : n = i <;> by_cases hmem : n ∈ ids <;> simp [hn, hmem]

/-! ## Reading -/

namespace RaftMetaStore

/-- Every record is stored under its own key. -/
def Keyed (s : RaftMetaStore P M) : Prop :=
  ∀ j, ∀ m ∈ (s.kv.view j).commits, ∀ r, m.value = some r → r.key = j

variable {s t : RaftMetaStore P M} {txnId : TxnId} {wall : UInt64} {j : Bytes}

theorem keyed_empty : (new (P := P) (M := M) .empty).Keyed := by
  intro j m hm
  cases hm

theorem Keyed.key_eq (h : s.Keyed) (hget : s.kv.get j u64Max = some r) : r.key = j := by
  obtain ⟨m, hm, hval⟩ := MemKvEngine.get_eq_some_iff.mp hget
  obtain ⟨hmem, hcommitted⟩ := (VersionChain.isNewest_of_newestVisible hm).1
  exact h j m (mem_filter.mpr ⟨hmem, by simp [hcommitted]⟩) r hval

theorem foldlM_loadRow {rows : List (KvPair (MetaRecord P M))} (out : OrdMap Nat (Entry P))
    (h : ∀ row ∈ rows, ∃ e, row.value = .entry e) :
    ∃ es : List (Entry P), rows.foldlM loadRow out = .ok (insertAll out es) ∧
      rows.map (·.value) = es.map .entry := by
  induction rows generalizing out with
  | nil => exact ⟨[], rfl, rfl⟩
  | cons row rows ih =>
    obtain ⟨e, he⟩ := h row mem_cons_self
    obtain ⟨es, hes, hmap⟩ := ih (out.insert e.index e) fun r hr =>
      h r (mem_cons_of_mem row hr)
    refine ⟨e :: es, ?_, ?_⟩
    · rw [foldlM_cons, loadRow, he]
      exact hes
    · rw [map_cons, he, hmap, map_cons]

theorem loadLog_spec (h : s.Keyed) :
    ∃ log, s.loadLog = .ok log ∧ ∀ n e, log.get? n = some e ↔
      e.index = n ∧ s.kv.get (logKey e.logId.index) u64Max = some (.entry e) := by
  obtain ⟨rows, hrows, -, hmem⟩ :=
    MemKvEngine.scan_spec s.kv (show raftLogPrefix ≤ raftLogEnd by decide) u64Max
  have hget : ∀ row ∈ rows, s.kv.get row.key u64Max = some row.value := by
    intro row hrow
    obtain ⟨-, e, he, hval, -⟩ := (hmem row).mp hrow
    exact MemKvEngine.get_eq_some_iff.mpr ⟨e, he, hval⟩
  have hentry : ∀ row ∈ rows, ∃ e, row.value = .entry e := by
    intro row hrow
    obtain ⟨⟨hlo, hhi⟩, -⟩ := (hmem row).mp hrow
    have hkey := h.key_eq (hget row hrow)
    exact eq_entry_of_mem_range (hkey ▸ hlo) (hkey ▸ hhi)
  obtain ⟨es, hes, hvalues⟩ := foldlM_loadRow .empty hentry
  -- the entries are the values of the rows, so they are what the store returns
  have hstored : ∀ e, e ∈ es ↔ s.kv.get (logKey e.logId.index) u64Max = some (.entry e) := by
    intro e
    have hval : e ∈ es ↔ ∃ row ∈ rows, row.value = .entry e := by
      have : (MetaRecord.entry e : MetaRecord P M) ∈ es.map .entry ↔ e ∈ es := by simp
      rw [← this, ← hvalues, mem_map]
    rw [hval]
    constructor
    · rintro ⟨row, hrow, hv⟩
      have hkey := h.key_eq (hget row hrow)
      rw [hv, MetaRecord.key] at hkey
      rw [hkey, ← hv]
      exact hget row hrow
    · intro hg
      obtain ⟨m, hm, hv⟩ := MemKvEngine.get_eq_some_iff.mp hg
      exact ⟨⟨_, _, m.version⟩, (hmem _).mpr ⟨logKey_mem_range _, m, hm, hv, rfl⟩, rfl⟩
  refine ⟨_, by rw [loadLog, hrows]; exact hes, fun n e => ?_⟩
  rw [get?_insertAll, OrdMap.get?_empty, Option.or_none, ← hstored]
  constructor
  · intro hlast
    obtain ⟨he, hn⟩ := mem_of_lastAt hlast
    exact ⟨hn, he⟩
  · rintro ⟨hn, he⟩
    cases hlast : lastAt n es with
    | none => exact absurd hn (lastAt_eq_none.mp hlast e he)
    | some e' =>
      obtain ⟨he', hn'⟩ := mem_of_lastAt hlast
      have hidx : e'.logId.index = e.logId.index := UInt64.toNat.inj (hn'.trans hn.symm)
      have heq := (hstored e').mp he'
      rw [hidx, (hstored e).mp he] at heq
      cases heq
      rfl

theorem exists_loadVote (h : s.Keyed) : ∃ vote, s.loadVote = .ok vote := by
  rw [loadVote]
  split
  · exact ⟨_, rfl⟩
  · exact ⟨_, rfl⟩
  next r hother hget =>
    have hlen := congrArg length (h.key_eq hget)
    cases r with
    | vote v => exact absurd rfl (hother v)
    | applied a | snapshotMeta m => exact absurd hlen (by rw [MetaRecord.key]; decide)
    | entry e =>
      rw [MetaRecord.key, length_logKey] at hlen
      exact absurd hlen (by decide)

theorem ops_keyed (call : MetaCall P M) :
    ∀ op ∈ call.ops, ∀ r, op.value = some r → r.key = op.key := by
  intro op hop r hr
  cases call with
  | appendEntries entries =>
    obtain ⟨e, -, rfl⟩ := mem_map.mp hop
    cases hr
    rfl
  | purgeBatch entries applied =>
    rcases mem_append.mp hop with hop | hop
    · obtain ⟨e, -, rfl⟩ := mem_map.mp hop
      cases hr
    rw [mem_singleton.mp hop] at hr ⊢
    cases hr
    rfl
  | saveVote _ | saveApplied _ | saveSnapshotMeta _ | deleteEntry _ =>
    rw [mem_singleton.mp hop] at hr ⊢
    cases hr
    try rfl

theorem keyed_publish (hclean : s.Clean) (hkeyed : s.Keyed) (call : MetaCall P M) (ts last : Nat) :
    (⟨s.kv.publish txnId call.ops ts, last⟩ : RaftMetaStore P M).Keyed := by
  intro j m hm r hr
  rw [Table.view_publish hclean.wf hclean.idle hclean.free] at hm
  split at hm
  next v hw =>
    rcases mem_append.mp hm with hm | hm
    · exact hkeyed j m hm r hr
    rw [mem_singleton.mp hm] at hr
    obtain ⟨op, hop, rfl, hval⟩ := mem_of_written hw
    exact ops_keyed call op hop r (hval.trans hr)
  · exact hkeyed j m hm r hr

end RaftMetaStore

/-! ## Writing -/

/-- The store holds this log and this applied state. -/
structure Stores [Inhabited M] (s : RaftMetaStore P M) (log : OrdMap Nat (Entry P))
    (applied : AppliedState M) : Prop where
  clean : s.Clean
  keyed : s.Keyed
  entries : ∀ n e, log.get? n = some e ↔
    e.index = n ∧ s.kv.get (logKey e.logId.index) u64Max = some (.entry e)
  loadApplied : s.loadApplied = .ok applied

namespace Stores

theorem written_appendEntries (es : List (Entry P)) (i : UInt64) :
    written (logKey i) (MetaCall.appendEntries (M := M) es).ops =
      (lastAt i.toNat es).map fun e => some (.entry e) := by
  induction es with
  | nil => rfl
  | cons e es ih =>
    rw [MetaCall.ops] at ih
    have hidx : e.index = i.toNat ↔ e.logId.index = i := UInt64.toNat_inj
    simp only [MetaCall.ops, map_cons, written, ih, lastAt, IntentOperation.key,
      IntentOperation.value, logKey_eq_iff, hidx]
    cases lastAt i.toNat es with
    | some e' => rfl
    | none => split <;> rfl

theorem written_tombstones (ids : List LogId) (i : UInt64) :
    written (logKey i) (ids.map fun id => (.delete (logKey id.index) :
      IntentOperation (MetaRecord P M))) =
      if i.toNat ∈ ids.map (·.index.toNat) then some none else none := by
  induction ids with
  | nil => rfl
  | cons id ids ih =>
    simp only [map_cons, written, ih, IntentOperation.key, IntentOperation.value,
      logKey_eq_iff, mem_cons, UInt64.toNat_inj]
    by_cases hmem : i.toNat ∈ ids.map (·.index.toNat)
    · simp only [hmem, or_true, if_true, Option.some_or]
    · simp only [hmem, or_false, if_false, Option.none_or, eq_comm]

theorem written_raftAppliedKey {ops : List (IntentOperation (MetaRecord P M))}
    (h : ∀ op ∈ ops, ∃ i, op.key = logKey i) : written raftAppliedKey ops = none := by
  rw [written_eq_none]
  intro op hop heq
  obtain ⟨i, hi⟩ := h op hop
  exact raftAppliedKey_ne_logKey i (heq.symm.trans hi)

variable [Inhabited M] {s t : RaftMetaStore P M} {log : OrdMap Nat (Entry P)}
  {applied : AppliedState M} {txnId : TxnId} {wall : UInt64}

theorem loadLog (h : Stores s log applied) : s.loadLog = .ok log := by
  obtain ⟨log', hlog', hentries⟩ := loadLog_spec h.keyed
  rw [hlog']
  refine congrArg Except.ok (OrdMap.ext_get fun n => Option.ext fun e => ?_)
  rw [hentries, h.entries]

theorem of_load (hclean : s.Clean) (hkeyed : s.Keyed) (hlog : s.loadLog = .ok log)
    (happlied : s.loadApplied = .ok applied) : Stores s log applied := by
  obtain ⟨log', hlog', hentries⟩ := loadLog_spec hkeyed
  rw [hlog] at hlog'
  cases hlog'
  exact ⟨hclean, hkeyed, hentries, happlied⟩

section

variable (h : Stores s log applied)
include h

theorem new : Stores (.new s.kv) log applied :=
  ⟨clean_new h.clean, h.keyed, h.entries, h.loadApplied⟩

theorem get_logKey (e : Entry P) :
    s.kv.get (logKey e.logId.index) u64Max = some (.entry e) ↔ log.get? e.index = some e := by
  rw [h.entries]
  exact (and_iff_right rfl).symm

theorem index_eq (hget : log.get? n = some e) : e.index = n :=
  ((h.entries n e).mp hget).1

theorem publish (call : MetaCall P M) (habove : ∀ op ∈ call.ops, s.Above wall op.key)
    (hindex : ∀ n e, log'.get? n = some e → e.index = n)
    (hlog : ∀ e, log'.get? e.index = some e ↔ (written (logKey e.logId.index) call.ops).getD
      (s.kv.get (logKey e.logId.index) u64Max) = some (.entry e))
    (happlied : written raftAppliedKey call.ops = none ∧ applied' = applied ∨ written
      raftAppliedKey call.ops = some (some (.applied applied'))) :
    Stores ⟨s.kv.publish txnId call.ops (s.nextTs wall), s.nextTs wall⟩ log' applied' := by
  have hget : ∀ j, MemKvEngine.get (s.kv.publish txnId call.ops (s.nextTs wall)) j u64Max =
      (written j call.ops).getD (s.kv.get j u64Max) := by
    intro j
    refine RaftMetaStore.get_publish h.clean fun hne => ?_
    obtain ⟨v, hv⟩ := Option.ne_none_iff_exists'.mp hne
    obtain ⟨op, hop, rfl, -⟩ := mem_of_written hv
    exact habove op hop
  refine ⟨h.clean.publish _ _, RaftMetaStore.keyed_publish h.clean h.keyed call _ _, ?_, ?_⟩
  · intro n e
    rw [hget, ← hlog]
    constructor
    · intro he
      have hn := hindex n e he
      exact ⟨hn, hn ▸ he⟩
    · rintro ⟨rfl, he⟩
      exact he
  · rw [RaftMetaStore.loadApplied]
    simp only [hget]
    rcases happlied with ⟨hw, rfl⟩ | hw
    · rw [hw, Option.getD_none]
      exact h.loadApplied
    · rw [hw, Option.getD_some]

end

section

variable (h : Stores s log applied)
include h

theorem appendEntries (txnId : TxnId) (es : List (Entry P))
    (habove : ∀ e ∈ es, s.Above wall (logKey e.logId.index)) :
    ∃ t, s.appendEntries txnId wall es = .ok t ∧ Stores t (insertAll log es) applied := by
  rcases perform_eq h.clean txnId wall (.appendEntries es) with ⟨heq, hnil⟩ | heq
  · cases es with
    | nil => exact ⟨s, heq, h⟩
    | cons e es => cases hnil
  have hput : ∀ op ∈ (MetaCall.appendEntries (M := M) es).ops, ∃ e ∈ es,
      op.key = logKey e.logId.index := by
    intro op hop
    obtain ⟨e, he, rfl⟩ := mem_map.mp hop
    exact ⟨e, he, rfl⟩
  refine ⟨_, heq, h.publish _ ?_ ?_ ?_ (.inl ⟨written_raftAppliedKey ?_, rfl⟩)⟩
  · intro op hop
    obtain ⟨e, he, hkey⟩ := hput op hop
    rw [hkey]
    exact habove e he
  · intro n e he
    rw [get?_insertAll, Option.or_eq_some_iff] at he
    rcases he with he | ⟨-, he⟩
    · exact (mem_of_lastAt he).2
    · exact h.index_eq he
  · intro e
    rw [get?_insertAll, written_appendEntries, Entry.index]
    cases lastAt e.logId.index.toNat es with
    | none =>
      rw [Option.none_or, Option.map_none, Option.getD_none]
      exact (h.get_logKey e).symm
    | some e' => simp
  · intro op hop
    obtain ⟨e, -, hkey⟩ := hput op hop
    exact ⟨_, hkey⟩

theorem erase (call : MetaCall P M) (ns : List Nat)
    (habove : ∀ op ∈ call.ops, s.Above wall op.key)
    (hw : ∀ i, written (logKey i) call.ops = if i.toNat ∈ ns then some none else none)
    (happlied : written raftAppliedKey call.ops = none ∧ applied' = applied ∨ written
      raftAppliedKey call.ops = some (some (.applied applied'))) :
    Stores ⟨s.kv.publish txnId call.ops (s.nextTs wall), s.nextTs wall⟩ (eraseAll log ns)
      applied' := by
  refine h.publish call habove ?_ ?_ happlied
  · intro n e he
    rw [get?_eraseAll] at he
    exact h.index_eq (Option.ite_none_left_eq_some.mp he).2
  intro e
  rw [get?_eraseAll, hw, Entry.index]
  split
  · simp
  · exact (h.get_logKey e).symm

theorem deleteEntry (txnId : TxnId) (i : UInt64) (habove : s.Above wall (logKey i)) :
    ∃ t, s.deleteEntry txnId wall i = .ok t ∧ Stores t (log.erase i.toNat) applied := by
  have hkey : ∀ op ∈ (MetaCall.deleteEntry (P := P) (M := M) i).ops, op.key = logKey i := by
    intro op hop
    rw [mem_singleton.mp hop]
    rfl
  refine ⟨_, transact_eq h.clean, h.erase (.deleteEntry i) [i.toNat] ?_ ?_
    (.inl ⟨written_raftAppliedKey fun op hop => ⟨i, hkey op hop⟩, rfl⟩)⟩
  · intro op hop
    rw [hkey op hop]
    exact habove
  · exact written_tombstones [⟨0, 0, i⟩]

theorem saveApplied (txnId : TxnId) (state : AppliedState M)
    (habove : s.Above wall raftAppliedKey) :
    ∃ t, s.saveApplied txnId wall state = .ok t ∧ Stores t log state := by
  refine ⟨_, transact_eq h.clean, h.erase (.saveApplied state) [] ?_ ?_
    (.inr rfl)⟩
  · intro op hop
    rw [mem_singleton.mp hop]
    exact habove
  intro i
  rw [written_eq_none.mpr]
  · rfl
  intro op hop heq
  rw [mem_singleton.mp hop] at heq
  exact raftAppliedKey_ne_logKey i heq

theorem purgeBatch (txnId : TxnId) (ids : List LogId) (state : AppliedState M)
    (hids : ∀ id ∈ ids, s.Above wall (logKey id.index)) (habove : s.Above wall raftAppliedKey) :
    ∃ t, s.purgeBatch txnId wall ids state = .ok t ∧
      Stores t (eraseAll log (ids.map (·.index.toNat))) state := by
  refine ⟨_, transact_eq h.clean, h.erase (.purgeBatch ids state) _ ?_ ?_ (.inr ?_)⟩
  · intro op hop
    rcases mem_append.mp hop with hop | hop
    · obtain ⟨id, hid, rfl⟩ := mem_map.mp hop
      exact hids id hid
    · rw [mem_singleton.mp hop]
      exact habove
  · intro i
    rw [MetaCall.ops, written_append, written_tombstones, written, written, IntentOperation.key,
      if_neg (raftAppliedKey_ne_logKey i), Option.none_or, Option.none_or]
  · rw [MetaCall.ops, written_append]
    rfl

end

end Stores

end NodusDb.Raft
