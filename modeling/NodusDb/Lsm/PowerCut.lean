import NodusDb.Lib.Results
import NodusDb.Lsm.Lookup

/-!
# Power cuts

A crash keeps the table files and the manifest and cuts every log segment to a prefix that has at
least the records synced (`Crash`). A commit syncs the active segment only, and a flush rotates the
log without a sync, so an intent pending then may have its record in the unsynced end.

* `committed_writes_survive`: committed writes are read after any crash, unless a rotation found
  such an intent.
* `crash_keeps_reads`: in the same runs a crash changes no read at all.
* `committed_write_lost`: a run that rotates at the wrong moment.
-/

namespace NodusDb.Lsm

open List Option LsmKvEngine

/-! ## Intents in the log -/

/-- The transaction and the key of an intent record. -/
def WalRecord.intentOf : WalRecord → Option (TxnId × Bytes)
  | .writeIntent txnId key _ _ => some (txnId, key)
  | .deleteIntent txnId key _ => some (txnId, key)
  | _ => none

section Intents

variable {z : Table Bytes} {now : Nat} {t : TxnId} {key : Bytes}

theorem replayRecord_intent (now : Nat) (z : Table Bytes) (h : r.intentOf = some (t, key)) :
    ∃ v n, replayRecord now z r = z.replayIntent t key v n := by
  cases r with
  | writeIntent t' key' v at' => cases h; exact ⟨some v, _, rfl⟩
  | deleteIntent t' key' at' => cases h; exact ⟨none, _, rfl⟩
  | _ => cases h

variable {rs : List WalRecord}

theorem commits_replayIntents (hz : z.WF) (hrs : ∀ r ∈ rs, r.intentOf ≠ none) (k : Bytes) :
    ((replayRecords now z rs).view k).commits = (z.view k).commits := by
  induction rs generalizing z with
  | nil => rfl
  | cons r rs ih =>
    obtain ⟨⟨t, key⟩, hr⟩ := ne_none_iff_exists'.mp (hrs r mem_cons_self)
    obtain ⟨v, n, hstep⟩ := replayRecord_intent now z hr
    show ((replayRecords now (replayRecord now z r) rs).view k).commits = _
    rw [hstep, ih hz.replayIntent fun r' hr' => hrs r' (mem_cons_of_mem r hr'),
      Table.view_replayIntent hz]
    split
    next hk =>
      rw [hk, KeyState.write]
      split <;> rfl
    · rfl

theorem owner_replayIntents (hz : z.WF)
    (hrs : ∀ r ∈ rs, r.intentOf ≠ none) (ho : (z.view key).owner = some t) :
    ((replayRecords now z rs).view key).owner = some t := by
  induction rs generalizing z with
  | nil => exact ho
  | cons r rs ih =>
    obtain ⟨⟨u, key'⟩, hr⟩ := ne_none_iff_exists'.mp (hrs r mem_cons_self)
    obtain ⟨v, n, hstep⟩ := replayRecord_intent now z hr
    show ((replayRecords now (replayRecord now z r) rs).view key).owner = _
    rw [hstep]
    refine ih hz.replayIntent (fun r' hr' => hrs r' (mem_cons_of_mem r hr')) ?_
    rw [Table.view_replayIntent hz]
    split
    next hk =>
      subst hk
      rw [KeyState.write]
      split
      · exact ho
      next hb =>
      -- Not blocked by its owner, so the write is the owner's own.
      have : u = t := by
        by_contra hne
        refine hb ⟨by rw [ho]; exact some_ne_none t, ?_⟩
        rw [ho]
        exact fun he => hne (some.inj he).symm
      rw [this]
      rfl
    · exact ho

theorem view_replay_void (hz : z.WF) (hrs : ∀ r ∈ rs, r.intentOf ≠ none)
    (hvoid : ∀ r ∈ rs, ∀ t key, r.intentOf = some (t, key) →
      ((replayRecords now z rs).view key).owner ≠ some t) (n : Nat) (k : Bytes) :
    (replayRecords now z (rs.take n)).view k = z.view k := by
  induction rs generalizing z n with
  | nil => rw [take_nil]; rfl
  | cons r rs ih =>
    obtain ⟨⟨t, key⟩, hr⟩ := ne_none_iff_exists'.mp (hrs r mem_cons_self)
    obtain ⟨v, at', hstep⟩ := replayRecord_intent now z hr
    have hrs' : ∀ r' ∈ rs, r'.intentOf ≠ none := fun r' hr' => hrs r' (mem_cons_of_mem r hr')
    have hb : (z.view key).blocks t := by
      by_contra hnb
      refine hvoid r mem_cons_self t key hr ?_
      show ((replayRecords now (replayRecord now z r) rs).view key).owner = some t
      rw [hstep]
      refine owner_replayIntents hz.replayIntent hrs' ?_
      rw [Table.view_replayIntent hz, if_pos rfl, KeyState.write, if_neg hnb]
      rfl
    have hsame : ∀ j, (replayRecord now z r).view j = z.view j := by
      intro j
      rw [hstep, Table.view_replayIntent hz]
      split
      next hj => rw [hj, KeyState.write, if_pos hb]
      · rfl
    cases n with
    | zero => rfl
    | succ n =>
      rw [take_succ_cons]
      show (replayRecords now (replayRecord now z r) (rs.take n)).view k = _
      rw [ih (wf_replayRecord hz r) hrs' (fun r' hr' => hvoid r' (mem_cons_of_mem r hr')) n, hsame]

end Intents

/-! ## Crashes -/

/-- What is left of a segment: a prefix with at least the synced records. -/
def Cut (seg seg' : Segment) : Prop := ∃ n, seg.synced ≤ n ∧ seg'.records = seg.records.take n

/-- A power cut. The table files the manifest lists are there; others may be
lost or damaged. -/
structure Crash (d d' : Disk) : Prop where
  manifest : d'.manifest = d.manifest
  listed : ∀ m, d.manifest = some m → ∀ id ∈ m.sstables, d'.ssts.get? id = d.ssts.get? id
  noNewSst : ∀ id, d'.ssts.get? id ≠ none → d.ssts.get? id ≠ none
  noNewWal : ∀ id, d'.wals.get? id ≠ none → d.wals.get? id ≠ none
  cut : ∀ id seg, d.wals.get? id = some seg → ∃ seg', d'.wals.get? id = some seg' ∧ Cut seg seg'

theorem Crash.cutSegment {d : Disk} {id : Nat} {seg seg' : Segment}
    (hget : d.wals.get? id = some seg) (hcut : Cut seg seg') :
    Crash d { d with wals := d.wals.insert id seg' } := by
  refine ⟨rfl, fun m _ id _ => rfl, fun id h => h, fun j hj => ?_, fun j segj hj => ?_⟩
  · by_cases hid : j = id
    · rw [hid, hget]
      exact some_ne_none seg
    · rwa [show (d.wals.insert id seg').get? j = _ from OrdMap.get?_insert_of_ne hid] at hj
  by_cases hid : j = id
  · rw [hid, hget] at hj
    cases hj
    exact ⟨seg', by rw [hid]; exact OrdMap.get?_insert_self _ _ _, hcut⟩
  · exact ⟨segj, (OrdMap.get?_insert_of_ne hid).trans hj, max segj.synced segj.records.length,
      le_max_left _ _, (take_of_length_le (le_max_right _ _)).symm⟩

/-- The header of a rotated segment is synced. -/
def HeaderSynced (seg : Segment) : Prop :=
  ∀ p rs, seg.records = .segmentHeader p :: rs → 1 ≤ seg.synced

theorem Cut.header (h : Cut seg seg') (hs : HeaderSynced seg)
    (hseg : seg.records = .segmentHeader p :: rs) :
    ∃ n, seg'.records = .segmentHeader p :: rs.take n := by
  obtain ⟨n, hn, hrec⟩ := h
  obtain ⟨n, rfl⟩ := Nat.exists_eq_succ_of_ne_zero (by have := hs p rs hseg; omega : n ≠ 0)
  exact ⟨n, by rw [hrec, hseg, take_succ_cons]⟩

theorem Lineage.crash {wals wals' : OrdMap Nat Segment} {floor id : Nat} {segs : List Segment}
    (h : Lineage wals floor id segs) (hs : ∀ seg ∈ segs, HeaderSynced seg)
    (hc : ∀ id seg, wals.get? id = some seg → ∃ seg', wals'.get? id = some seg' ∧ Cut seg seg') :
    ∃ segs', Lineage wals' floor id segs' ∧ List.Forall₂ Cut segs segs' := by
  have hplain : ∀ {rs : List WalRecord} {n : Nat}, (∀ r ∈ rs, r.isHeader = false) →
      ∀ r ∈ rs.take n, r.isHeader = false := fun hp r hr => hp r (mem_of_mem_take hr)
  induction h with
  | first hget hp hid hfloor =>
    obtain ⟨seg', hget', hcut⟩ := hc _ _ hget
    have ⟨n, _, hrec⟩ := hcut
    exact ⟨[seg'], .first hget' (hrec ▸ hplain hp) hid hfloor, .cons hcut .nil⟩
  | atFloor hget hseg hp hprev hlt =>
    obtain ⟨seg', hget', hcut⟩ := hc _ _ hget
    obtain ⟨n, hrec⟩ := hcut.header (hs _ mem_cons_self) hseg
    exact ⟨[seg'], .atFloor hget' hrec (hplain hp) hprev hlt, .cons hcut .nil⟩
  | next hget hseg hp hprev hlt hfloor _ ih =>
    obtain ⟨seg', hget', hcut⟩ := hc _ _ hget
    obtain ⟨n, hrec⟩ := hcut.header (hs _ mem_cons_self) hseg
    obtain ⟨segs', hrest, hcuts⟩ := ih fun seg hseg => hs seg (mem_cons_of_mem _ hseg)
    exact ⟨seg' :: segs', .next hget' hrec (hplain hp) hprev hlt hfloor hrest, .cons hcut hcuts⟩

/-- What makes a chain of segments proof against a crash: the unsynced end of
the active segment has intents only, and what the other segments may lose does
not matter. -/
structure Durable (seg : Segment) (rest : List Segment) : Prop where
  headers : ∀ s ∈ seg :: rest, HeaderSynced s
  tail : ∀ r ∈ seg.records.drop seg.synced, r.intentOf ≠ none
  old : ∀ rest', List.Forall₂ Cut rest rest' → ∀ k, (imageOf rest').view k = (imageOf rest).view k

section Durable

variable {seg : Segment} {rest : List Segment}

theorem durable_fresh : Durable ⟨[], 0⟩ [] := by
  refine ⟨fun s hs p rs hrec => ?_, fun r hr => absurd hr not_mem_nil, fun rest' h k => ?_⟩
  · rw [mem_singleton.mp hs] at hrec
    cases hrec
  · cases h
    rfl

theorem Durable.view_replay (h : Durable seg rest) (hc : List.Forall₂ Cut rest rest')
    (records : List WalRecord) (k : Bytes) :
    (replayRecords 0 (imageOf rest') records).view k =
      (replayRecords 0 (imageOf rest) records).view k :=
  view_replayRecords records (wf_imageOf rest') (wf_imageOf rest) (h.old rest' hc) k

theorem Durable.commits (h : Durable seg rest) (hc : List.Forall₂ Cut (seg :: rest) segs')
    (k : Bytes) : commitsAt (imageOf segs') k = commitsAt (imageOf (seg :: rest)) k := by
  cases hc with
  | @cons _ seg' _ rest' hcut hrest =>
    obtain ⟨n, hn, hrec⟩ := hcut
    unfold commitsAt
    rw [imageOf_cons, h.view_replay hrest, imageOf_cons, hrec]
    have hlost : ∀ r ∈ seg.records.drop n, r.intentOf ≠ none := by
      intro r hr
      refine h.tail r ?_
      rw [← Nat.sub_add_cancel hn, Nat.add_comm, ← drop_drop] at hr
      exact mem_of_mem_drop hr
    have hkept : (replayRecords 0 (imageOf rest) (seg.records.take n)).WF :=
      wf_replayRecords (wf_imageOf rest) _
    rw [← commits_replayIntents hkept hlost k, ← replayRecords_append, take_append_drop]

theorem intentOf_logged (hs : mu.syncs = false) : ∀ r ∈ logged s mu, r.intentOf ≠ none := by
  intro r hr
  cases mu with
  | writeIntent t key v n | deleteIntent t key n =>
    rw [mem_singleton.mp hr]
    exact some_ne_none _
  | writeIntentBatch t ops n =>
    simp only [logged] at hr
    split at hr
    · obtain ⟨op, -, rfl⟩ := mem_map.mp hr
      cases op <;> exact some_ne_none _
    · exact absurd hr not_mem_nil
  | replaceIntent => exact absurd hr not_mem_nil
  | commit => cases hs
  | commitBatch commits =>
    cases commits with
    | nil => exact absurd hr not_mem_nil
    | cons c commits => cases hs
  | abort => cases hs

theorem Durable.log (h : Durable seg rest) (s : Table Bytes) (mu : Mutation) :
    Durable ⟨seg.records ++ logged s mu,
      if mu.syncs then (seg.records ++ logged s mu).length else seg.synced⟩ rest := by
  refine ⟨fun x hx p rs hrec => ?_, fun r hr => ?_, h.old⟩
  · rcases mem_cons.mp hx with rfl | hx
    · have hlen : 1 ≤ (seg.records ++ logged s mu).length := by
        rw [show seg.records ++ logged s mu = _ from hrec, length_cons]
        exact Nat.le_add_left 1 _
      show 1 ≤ if mu.syncs then (seg.records ++ logged s mu).length else seg.synced
      split
      · exact hlen
      cases hr : seg.records with
      | nil =>
        -- What a mutation logs is not a header.
        have hrec' : seg.records ++ logged s mu = .segmentHeader p :: rs := hrec
        rw [hr, nil_append] at hrec'
        have := isHeader_logged s mu (.segmentHeader p) (hrec' ▸ mem_cons_self)
        cases this
      | cons r₀ rs₀ =>
        have hrec' : seg.records ++ logged s mu = .segmentHeader p :: rs := hrec
        rw [hr, cons_append] at hrec'
        have hhead : r₀ = .segmentHeader p := (cons.inj hrec').1
        exact h.headers seg mem_cons_self p rs₀ (by rw [hr, hhead])
    · exact h.headers x (mem_cons_of_mem seg hx) p rs hrec
  · cases hsync : mu.syncs with
    | true =>
      rw [hsync] at hr
      have : r ∈ (seg.records ++ logged s mu).drop (seg.records ++ logged s mu).length := hr
      rw [drop_length] at this
      exact absurd this not_mem_nil
    | false =>
      rw [hsync] at hr
      have hr' : r ∈ (seg.records ++ logged s mu).drop seg.synced := hr
      rw [drop_append] at hr'
      rcases mem_append.mp hr' with hr' | hr'
      · exact h.tail r hr'
      · exact intentOf_logged hsync r (mem_of_mem_drop hr')

theorem durable_restart (p : Option Nat) : Durable ⟨[.segmentHeader p], 1⟩ [] := by
  refine ⟨fun s hs p' rs _ => ?_, fun r hr => absurd hr not_mem_nil, fun rest' h k => ?_⟩
  · rw [mem_singleton.mp hs]
  · cases h
    rfl

theorem Durable.rotate (h : Durable seg rest) (p : Option Nat)
    (hvoid : ∀ r ∈ seg.records.drop seg.synced, ∀ t key, r.intentOf = some (t, key) →
      ((imageOf (seg :: rest)).view key).owner ≠ some t) :
    Durable ⟨[.segmentHeader p], 1⟩ (seg :: rest) := by
  refine ⟨fun s hs => ?_, fun r hr => absurd hr not_mem_nil, fun segs' hc k => ?_⟩
  · rcases mem_cons.mp hs with rfl | hs
    · exact fun _ _ _ => le_rfl
    · exact h.headers s hs
  cases hc with
  | @cons _ seg' _ rest' hcut hrest =>
    obtain ⟨n, hn, hrec⟩ := hcut
    have hz : (replayRecords 0 (imageOf rest) (seg.records.take seg.synced)).WF :=
      wf_replayRecords (wf_imageOf rest) _
    have himage : imageOf (seg :: rest) = replayRecords 0
        (replayRecords 0 (imageOf rest) (seg.records.take seg.synced))
        (seg.records.drop seg.synced) := by
      rw [imageOf_cons, ← replayRecords_append, take_append_drop]
    rw [himage] at hvoid
    have hkept : seg.records.take n = seg.records.take seg.synced ++
        (seg.records.drop seg.synced).take (n - seg.synced) := by
      rw [← take_add, Nat.add_sub_cancel' hn]
    -- Both the cut end and the whole end replay to nothing.
    have hcutEnd := view_replay_void hz h.tail hvoid (n - seg.synced) k
    have hwhole := view_replay_void hz h.tail hvoid (seg.records.drop seg.synced).length k
    rw [take_length] at hwhole
    rw [imageOf_cons, h.view_replay hrest, hrec, hkept, replayRecords_append, hcutEnd, himage,
      hwhole]

end Durable

section Recoverable

variable [ChainCodec] {d d' : Disk} {m : Table Bytes}

/-- The directory has all commits of the reference, whatever a crash takes. -/
def Recoverable (d : Disk) (m : Table Bytes) : Prop :=
  ∃ man layers seg rest n, Stored d man layers (seg :: rest) ∧ d.Below n ∧
    HoldsUpper (imageOf (seg :: rest)) m layers 0 ∧ Durable seg rest

theorem Stored.crash (h : Stored d man layers segs) (hs : ∀ seg ∈ segs, HeaderSynced seg)
    (hc : Crash d d') : ∃ segs', Stored d' man layers segs' ∧ List.Forall₂ Cut segs segs' := by
  obtain ⟨segs', hl, hcuts⟩ := h.lineage.crash hs hc.cut
  refine ⟨segs', ⟨hc.manifest.trans h.manifest, h.ordered, ?_, hl⟩, hcuts⟩
  exact tables_frame h.tables fun id hid => hc.listed man h.manifest id (mem_reverse.mp hid)

theorem Recoverable.reopen (h : Recoverable d m) (hm : m.WF) (hinc : Increasing m)
    (hc : Crash d d') (now : Nat) :
    ∃ r, withWal d' now = .ok r ∧ ∀ k readTs, r.get k readTs = .ok (MemKvEngine.get m k readTs) := by
  obtain ⟨man, layers, seg, rest, n, hst, hbelow, himg, hdur⟩ := h
  obtain ⟨segs', hst', hcuts⟩ := hst.crash hdur.headers hc
  have hbelow' : d'.Below n :=
    ⟨fun id hid => hbelow.wals id (hc.noNewWal id hid),
      fun id hid => hbelow.ssts id (hc.noNewSst id hid), hbelow.le⟩
  obtain ⟨r, hopen, hd, ht, -⟩ := reopen_onDisk hst' hbelow' now
  refine ⟨r, hopen, fun k readTs => get_ref hd ⟨?_, fun k => ?_⟩ hm hinc (Nat.zero_le readTs)⟩
  · rw [ht]
    exact wf_replayRecords Table.wf_empty _
  · rw [ht, commitsAt_congr (view_replay_eq_image now segs'), hdur.commits hcuts]
    exact himg.layered k

omit [ChainCodec] in
theorem memGet_commit (hm : m.WF) (hinc : Increasing m) (he : e ∈ (m.view k).commits) :
    MemKvEngine.get m k e.version = e.value := by
  have hset := commitSet_chainAt (k := k) hm
  have hinj : Set.InjOn MvccValue.version (m.chainAt k).commitSet := hset ▸ hinc.injOn k
  have hnew : IsNewest MvccValue.version (m.chainAt k).commitSet e.version e :=
    ⟨hset ▸ he, le_rfl, fun a _ ha => ha⟩
  rw [memGet_eq, VersionChain.newestVisible_of_isNewest hinj hnew, bind_some]

end Recoverable

/-! ## The engine -/

/-- The records a power cut may take from the active segment. -/
def unsyncedTail (s : LsmKvEngine) : List WalRecord :=
  s.activeSegment.records.drop s.activeSegment.synced

/-- No intent with an unsynced record in the active segment is pending. -/
def Covered (s : LsmKvEngine) : Prop :=
  ∀ r ∈ unsyncedTail s, ∀ p ∈ r.intentOf, (s.table.view p.2).owner ≠ some p.1

instance (s : LsmKvEngine) : Decidable (Covered s) :=
  inferInstanceAs (Decidable (∀ r ∈ unsyncedTail s, ∀ p ∈ r.intentOf, _))

section Engine

variable [ChainCodec] {s s1 s2 : LsmKvEngine} {m : Table Bytes} {seg : Segment} {rest : List Segment}
  {layers : List Layer}

section

variable (h : Inv s m 0 false layers (seg :: rest))
include h

theorem Inv.recoverable (hd : Durable seg rest) : Recoverable s.disk m :=
  ⟨_, _, _, _, _, h.disk.stored, h.disk.below, h.image rfl, hd⟩

theorem Inv.void (hc : Covered s) :
    ∀ r ∈ seg.records.drop seg.synced, ∀ t key, r.intentOf = some (t, key) →
      ((imageOf (seg :: rest)).view key).owner ≠ some t := by
  intro r hr t key hint
  have hlive : r ∈ unsyncedTail s := by
    rw [unsyncedTail, h.disk.activeSegment]
    exact hr
  have hown := hc r hlive (t, key) hint
  rw [KeyState.owner_congr ((h.live.pending key).trans ((h.image rfl).pending key).symm)] at hown
  exact hown

theorem Inv.publish (hd : Durable seg rest) (hc : Covered s) (hb : s.BuiltFor newSst s1)
    (hal : s1.allocateFileId = some (walId, s2)) :
    ∃ layers' seg' rest', Inv (s2.publishFlush walId newSst s.retains) m 0 false layers'
      (seg' :: rest') ∧ Durable seg' rest' := by
  refine ⟨_, _, _, (h.publishFlush hb hal).weaken fun _ => rfl, ?_⟩
  cases s.retains with
  | true => exact hd.rotate _ (h.void hc)
  | false => exact durable_restart _

theorem Inv.flush_durable (hd : Durable seg rest) (hc : Covered s) :
    ∃ layers' seg' rest', Inv s.flushInner.1 m 0 false layers' (seg' :: rest') ∧
      Durable seg' rest' := by
  rcases s.flushInner_cases with hs | ⟨id, s1, hb, -, hs⟩ |
    ⟨-, newSst, s1, walId, s2, hb, hal, hs | hs⟩
  · rw [hs]
    exact ⟨_, _, _, h, hd⟩
  · rw [hs]
    exact ⟨_, _, _, h.orphan hb, hd⟩
  · rw [hs]
    exact h.publish hd hc hb hal
  · rw [hs]
    obtain ⟨layers', seg', rest', hp, hd'⟩ := h.publish hd hc hb hal
    obtain ⟨layers'', hcomp⟩ := hp.compactInner
    exact ⟨_, _, _, hcomp, hd'⟩

theorem Inv.flush_unrotated (hact : s.flushInner.1.activeWal = s.activeWal) :
    Inv s.flushInner.1 m 0 false layers (seg :: rest) := by
  rcases s.flushInner_cases with hs | ⟨id, s1, hb, -, hs⟩ |
    ⟨-, newSst, s1, walId, s2, hb, hal, hs⟩
  · rw [hs]
    exact h
  · rw [hs]
    exact h.orphan hb
  have hids := publishFlush_ids hb hal s.retains
  have hle : s.nextFileId ≤ s.flushInner.1.activeWal := by
    rcases hs with hs | hs
    · rw [hs]; exact hids.1
    · rw [hs, (compactInner_ids _).1]; exact hids.1
  rw [hact] at hle
  exact absurd h.disk.wal_lt (not_lt.mpr hle)

theorem Inv.mutate_durable (hd : Durable seg rest) (hrep : mu.isReplace = false)
    (hinc : Increasing (mutateTable m mu)) (hact : (s.mutate mu).1.activeWal = s.activeWal) :
    ∃ seg', Inv (s.mutate mu).1 (mutateTable m mu) 0 false layers (seg' :: rest) ∧
      Durable seg' rest := by
  have hlog := h.logMutation mu hinc
  rw [Bool.false_or, unloggedBy_eq_false hrep] at hlog
  refine ⟨_, ?_, hd.log s.table mu⟩
  rcases s.mutate_cases mu with hm | ⟨n, hm⟩
  · rw [hm]
    exact hlog
  rw [hm] at hact ⊢
  unfold maybeFlushBySize at hact ⊢
  split
  next hsize =>
    rw [if_pos hsize] at hact
    refine (hlog.addMemtableBytes n).flush_unrotated (hact.trans ?_)
    exact (s.logMutation_activeWal mu).symm
  · exact hlog.addMemtableBytes n

end

/-! ## Inside a flush -/

/-- The directory between the steps of a compaction: the new table file is
built, and the manifest names it. The old files go one by one after that. -/
def compactDisks (s : LsmKvEngine) : List Disk :=
  match readTables s.disk (s.sstables.insertionSort (· ≤ ·)) with
  | .error _ => []
  | .ok tables =>
    match s.buildSst (compacted s.gcWatermark tables) with
    | none => []
    | some (newId, s1) =>
      [s1.disk, { s1.disk with manifest := some ⟨s1.activeWal, [newId], s1.minReplayWal⟩ }]

/-- The directory between the steps of a flush: the table file is built, the new
segment is created, the manifest is saved, and the steps of a compaction. -/
def flushDisks (s : LsmKvEngine) : List Disk :=
  let built :=
    if s.toFlush.size = 0 then some (none, s)
    else (s.buildSst s.toFlush).map fun (id, s) => (some id, s)
  match built with
  | none => []
  | some (newSst, s1) =>
    s1.disk ::
    match s1.allocateFileId with
    | none => []
    | some (walId, s2) =>
      let created : Segment := ⟨[.segmentHeader (some s2.activeWal)], 0⟩
      let published := s2.publishFlush walId newSst s.retains
      { s2.disk with wals := s2.disk.wals.insert walId created } ::
        published.disk :: compactDisks published

theorem Stored.newSegment (h : Stored d man layers segs) (hb : d.Below n) (hn : n + 1 ≤ u64Max)
    (created : Segment) :
    Stored { d with wals := d.wals.insert n created } man layers segs ∧
    Disk.Below { d with wals := d.wals.insert n created } (n + 1) := by
  have hlt : man.activeWal < n := hb.wals _ h.wal_mem
  refine ⟨⟨h.manifest, h.ordered, h.tables, h.lineage.frame fun j hj => ?_⟩, fun id hid => ?_,
    fun id hid => Nat.lt_succ_of_lt (hb.ssts id hid), hn⟩
  · exact OrdMap.get?_insert_of_ne (hj.trans_lt hlt).ne
  by_cases hnew : id = n
  · rw [hnew]
    exact Nat.lt_succ_self n
  · refine Nat.lt_succ_of_lt (hb.wals id fun hnone => hid ?_)
    exact (OrdMap.get?_insert_of_ne hnew).trans hnone

theorem Inv.compact_recoverable (h : Inv s m 0 false layers (seg :: rest)) (hd : Durable seg rest) :
    ∀ d ∈ compactDisks s, Recoverable d m := by
  have hsorted : s.sstables.insertionSort (· ≤ ·) = s.sstables :=
    (h.disk.stored.ordered.imp fun hlt => hlt.le).insertionSort_eq
  intro d hmem
  unfold compactDisks at hmem
  rw [hsorted, h.disk.readTables] at hmem
  simp only at hmem
  split at hmem
  · exact absurd hmem not_mem_nil
  next newId s1 hb =>
  have h1 := h.orphan hb
  rcases mem_cons.mp hmem with rfl | hmem
  · exact h1.recoverable hd
  rw [mem_singleton.mp hmem]
  have himg := h.image rfl
  refine ⟨_, [_], seg, rest, _, ⟨rfl, pairwise_singleton _ _, .cons ?_ .nil,
    h1.disk.stored.lineage⟩, ⟨h1.disk.below.wals, h1.disk.below.ssts, h1.disk.below.le⟩,
    ⟨himg.toHolds.compacted h.increasing h.watermark, himg.upper⟩, hd⟩
  obtain ⟨rfl, -, rfl⟩ := buildSst_inv hb
  exact OrdMap.get?_insert_self _ _ _

theorem Inv.flush_recoverable (h : Inv s m 0 false layers (seg :: rest)) (hd : Durable seg rest)
    (hc : Covered s) : ∀ d ∈ flushDisks s, Recoverable d m := by
  intro d hmem
  unfold flushDisks at hmem
  simp only at hmem
  split at hmem
  · exact absurd hmem not_mem_nil
  next newSst s1 hbuilt =>
  have hb : s.BuiltFor newSst s1 := by
    split at hbuilt
    next h0 =>
      cases hbuilt
      exact .inl ⟨rfl, h0, rfl⟩
    · obtain ⟨⟨id, s1'⟩, hbs, heq⟩ := map_eq_some_iff.mp hbuilt
      cases heq
      exact .inr ⟨id, rfl, hbs⟩
  have h1 : Inv s1 m 0 false layers (seg :: rest) := by
    rcases hb with ⟨-, -, rfl⟩ | ⟨id, -, hbs⟩
    · exact h
    · exact h.orphan hbs
  rcases mem_cons.mp hmem with rfl | hmem
  · exact h1.recoverable hd
  split at hmem
  · exact absurd hmem not_mem_nil
  next walId s2 hal =>
  rcases mem_cons.mp hmem with rfl | hmem
  · obtain ⟨rfl, hle, rfl⟩ := allocateFileId_inv hal
    obtain ⟨hst, hbelow⟩ := h1.disk.stored.newSegment h1.disk.below hle
      ⟨[.segmentHeader (some s1.activeWal)], 0⟩
    exact ⟨_, _, _, _, _, hst, hbelow, h1.image rfl, hd⟩
  · obtain ⟨layers', seg', rest', hp, hd'⟩ := h.publish hd hc hb hal
    rcases mem_cons.mp hmem with rfl | hmem
    · exact hp.recoverable hd'
    · exact hp.compact_recoverable hd' d hmem

end Engine

/-! ## Runs -/

/-- What durability asks of a call: no write sets a flush off, and a flush finds
no pending intent with an unsynced record. (Collections and savepoints are not
among the calls considered.) -/
def RotationSafe [ChainCodec] (t : Traced) : Op → Prop
  | .mutate mu => mu.isReplace = false ∧ (t.engine.mutate mu).1.activeWal = t.engine.activeWal
  | .flush => Covered t.engine
  | .garbageCollect _ => False
  | _ => True

instance [ChainCodec] (t : Traced) : (op : Op) → Decidable (RotationSafe t op)
  | .mutate _ => inferInstanceAs (Decidable (_ ∧ _))
  | .flush => inferInstanceAs (Decidable (Covered _))
  | .garbageCollect _ => .isFalse id
  | .compact | .setFlushThreshold _ | .reopen _ => .isTrue trivial

section Runs

variable [ChainCodec]

def DurableState (s : LsmKvEngine) (m : Table Bytes) : Prop :=
  ∃ layers seg rest, Inv s m 0 false layers (seg :: rest) ∧ Durable seg rest

variable {t : Traced}

theorem DurableState.apply {t' : Traced} {op : Op} (h : DurableState t.engine t.ref)
    (hs : RotationSafe t op) (hinc : Increasing t'.ref) (happly : t.apply op = some t') :
    DurableState t'.engine t'.ref := by
  obtain ⟨layers, seg, rest, hinv, hd⟩ := h
  have href := Traced.ref_of_apply happly
  rw [href] at hinc ⊢
  obtain ⟨s, hengine, rfl⟩ := map_eq_some_iff.mp happly
  show DurableState s _
  cases op with
  | mutate mu =>
    cases hengine
    obtain ⟨seg', hm, hd'⟩ := hinv.mutate_durable hd hs.1 hinc hs.2
    exact ⟨layers, seg', rest, hm, hd'⟩
  | flush =>
    cases hengine
    exact hinv.flush_durable hd hs
  | compact =>
    cases hengine
    obtain ⟨layers', hc⟩ := hinv.compactInner
    exact ⟨layers', seg, rest, hc, hd⟩
  | garbageCollect watermark => exact hs.elim
  | setFlushThreshold bytes =>
    cases hengine
    exact ⟨layers, seg, rest, hinv.setFlushThreshold bytes, hd⟩
  | reopen now =>
    obtain ⟨r, hopen, hr, -⟩ := hinv.withWal now
    have heq : (withWal t.engine.disk now).toOption = some s := hengine
    rw [hopen] at heq
    cases heq
    exact ⟨layers, seg, rest, hr, hd⟩

theorem wf_ref_of_run (hr : Traced.RunOk ok .start ops t) : t.ref.WF := by
  refine hr.invariant (I := fun t => t.ref.WF) Table.wf_empty fun t op u h hstep => ?_
  rw [Traced.ref_of_apply hstep.2]
  exact wf_refApply h op

theorem durableState_of_run (hr : Traced.RunOk RotationSafe .start ops t)
    (hinc : Increasing t.ref) :
    DurableState t.engine t.ref := by
  induction hr with
  | nil => exact ⟨_, _, _, inv_fresh, durable_fresh⟩
  | snoc hprev hstep ih =>
    have hinc' := hinc
    rw [Traced.ref_of_apply hstep.2] at hinc'
    exact (ih (hinc'.of_refApply (wf_ref_of_run hprev))).apply hstep.1 hinc hstep.2

/-- In every run in which no rotation finds a pending intent with an unsynced
record, and each key's commits come in the order of their timestamps, a crash
at the end of the run or inside a flush leaves a directory that opens, and
every committed write is read at its timestamp. -/
theorem committed_writes_survive (ops : List Op) (t : Traced)
    (hr : Traced.RunOk RotationSafe .start ops t) (hinc : Increasing t.ref) (d d' : Disk)
    (hd : d = t.engine.disk ∨ (Covered t.engine ∧ d ∈ flushDisks t.engine)) (hc : Crash d d')
    (now : Nat) :
    ∃ r, withWal d' now = .ok r ∧
      ∀ k, ∀ e ∈ (t.ref.view k).commits, r.get k e.version = .ok e.value := by
  have hwf := wf_ref_of_run hr
  obtain ⟨layers, seg, rest, hinv, hdur⟩ := durableState_of_run hr hinc
  have hrec : Recoverable d t.ref := by
    rcases hd with rfl | ⟨hcov, hmem⟩
    · exact hinv.recoverable hdur
    · exact hinv.flush_recoverable hdur hcov d hmem
  obtain ⟨r, hopen, hreads⟩ := hrec.reopen hwf hinc hc now
  refine ⟨r, hopen, fun k e he => ?_⟩
  rw [hreads, memGet_commit hwf hinc he]

/-- A crash after such a run, or inside a flush, changes no read: the directory opens and reads as
the engine did. In particular no write that was not committed appears. -/
theorem crash_keeps_reads (ops : List Op) (t : Traced)
    (hr : Traced.RunOk RotationSafe .start ops t) (hinc : Increasing t.ref) (d d' : Disk)
    (hd : d = t.engine.disk ∨ (Covered t.engine ∧ d ∈ flushDisks t.engine)) (hc : Crash d d')
    (now : Nat) :
    ∃ r, withWal d' now = .ok r ∧ ∀ k readTs, r.get k readTs = t.engine.get k readTs := by
  obtain ⟨layers, seg, rest, hinv, hdur⟩ := durableState_of_run hr hinc
  have hrec : Recoverable d t.ref := by
    rcases hd with rfl | ⟨hcov, hmem⟩
    · exact hinv.recoverable hdur
    · exact hinv.flush_recoverable hdur hcov d hmem
  obtain ⟨r, hopen, hreads⟩ := hrec.reopen (wf_ref_of_run hr) hinc hc now
  refine ⟨r, hopen, fun k readTs => ?_⟩
  rw [hreads, get_ref hinv.disk hinv.live.toAnswers hinv.ref hinv.increasing (Nat.zero_le readTs)]

end Runs

/-- Two commits with a flush between them, and an intent that is pending. -/
def pendingAtCutRun : List Op :=
  [.mutate (.writeIntent 1 [7] [10] 0), .mutate (.commit 1 1), .flush,
   .mutate (.writeIntent 2 [7] [11] 0), .mutate (.commit 2 2), .flush,
   .mutate (.writeIntent 3 [8] [12] 0)]

/-- The power cut takes the record of the pending intent. -/
theorem committed_writes_survive_pendingAtCutRun :
    ∃ t d' r, @Traced.RunOk bincode (@RotationSafe bincode) .start pendingAtCutRun t ∧
      Crash t.engine.disk d' ∧ withWal d' 0 = .ok r ∧
      r.get [7] 1 = .ok (some [10]) ∧ r.get [7] 2 = .ok (some [11]) := by
  obtain ⟨t, ht, hinc, hwal, hcommits⟩ :
      ∃ t, execOk (@Traced.apply bincode) (@RotationSafe bincode) .start pendingAtCutRun = some t ∧
        (∀ e ∈ t.ref.store.entries, e.2.state.commits.Pairwise fun a b => a.version < b.version) ∧
        t.engine.disk.wals.get? 5 =
          some ⟨[.segmentHeader (some 3), .writeIntent 3 [8] [12] (some 0)], 1⟩ ∧
        (t.ref.view [7]).commits.map (fun e => (e.version, e.value)) =
          [(1, some [10]), (2, some [11])] := by
    decide +kernel
  have hr := run_of_execOk ht
  have hcut : Cut ⟨[.segmentHeader (some 3), .writeIntent 3 [8] [12] (some 0)], 1⟩
      ⟨[.segmentHeader (some 3)], 1⟩ := ⟨1, le_rfl, rfl⟩
  have hcrash := Crash.cutSegment hwal hcut
  obtain ⟨r, hopen, hreads⟩ := @committed_writes_survive bincode _ t hr (increasing_of_entries hinc)
    _ _ (.inl rfl) hcrash 0
  have hread : ∀ p ∈ [(1, some [10]), (2, some [11])], r.get [7] p.1 = .ok p.2 := by
    rw [← hcommits]
    intro p hp
    obtain ⟨e, he, rfl⟩ := mem_map.mp hp
    exact hreads [7] e he
  exact ⟨t, _, r, hr, hcrash, hopen, hread (1, some [10]) (by simp), hread (2, some [11]) (by simp)⟩

theorem crash_keeps_reads_pendingAtCutRun :
    ∃ t d' r, @Traced.RunOk bincode (@RotationSafe bincode) .start pendingAtCutRun t ∧
      Crash t.engine.disk d' ∧ withWal d' 0 = .ok r ∧
      ∀ k readTs, r.get k readTs = t.engine.get k readTs := by
  obtain ⟨t, ht, hinc, hwal⟩ :
      ∃ t, execOk (@Traced.apply bincode) (@RotationSafe bincode) .start pendingAtCutRun = some t ∧
        (∀ e ∈ t.ref.store.entries, e.2.state.commits.Pairwise fun a b => a.version < b.version) ∧
        t.engine.disk.wals.get? 5 =
          some ⟨[.segmentHeader (some 3), .writeIntent 3 [8] [12] (some 0)], 1⟩ := by
    decide +kernel
  have hr := run_of_execOk ht
  have hcut : Cut ⟨[.segmentHeader (some 3), .writeIntent 3 [8] [12] (some 0)], 1⟩
      ⟨[.segmentHeader (some 3)], 1⟩ := ⟨1, le_rfl, rfl⟩
  have hcrash := Crash.cutSegment hwal hcut
  obtain ⟨r, hopen, hreads⟩ := @crash_keeps_reads bincode _ t hr (increasing_of_entries hinc)
    _ _ (.inl rfl) hcrash 0
  exact ⟨t, _, r, hr, hcrash, hopen, hreads⟩

def rotatedIntentRun : List Op :=
  [.mutate (.writeIntent 1 [7] [10] 0), .flush, .mutate (.commit 1 5)]

/-- The commit syncs the new segment, and the power cut takes the intent from
the old one: the write is gone. -/
theorem committed_write_lost :
    ∃ t d' r, exec (@Traced.apply bincode) .start rotatedIntentRun = some t ∧ Increasing t.ref ∧
      (∃ e ∈ (t.ref.view [7]).commits, e.version = 5 ∧ e.value = some [10]) ∧
      t.engine.get [7] 5 = .ok (some [10]) ∧ Crash t.engine.disk d' ∧
      withWal d' 0 = .ok r ∧ r.get [7] 5 = .ok none := by
  obtain ⟨t, ht, hinc, hcommit, hget, hwal, r, hopen, hlost⟩ :
      ∃ t, exec (@Traced.apply bincode) .start rotatedIntentRun = some t ∧
        (∀ e ∈ t.ref.store.entries, e.2.state.commits.Pairwise fun a b => a.version < b.version) ∧
        (∃ e ∈ (t.ref.view [7]).commits, e.version = 5 ∧ e.value = some [10]) ∧
        t.engine.get [7] 5 = .ok (some [10]) ∧
        t.engine.disk.wals.get? 1 = some ⟨[.writeIntent 1 [7] [10] (some 0)], 0⟩ ∧
        ∃ r, withWal { t.engine.disk with wals := t.engine.disk.wals.insert 1 ⟨[], 0⟩ } 0 = .ok r ∧
          r.get [7] 5 = .ok none := by
    decide +kernel
  have hcut : Cut ⟨[.writeIntent 1 [7] [10] (some 0)], 0⟩ ⟨[], 0⟩ := ⟨0, le_rfl, rfl⟩
  exact ⟨t, _, r, ht, increasing_of_entries hinc, hcommit, hget, .cutSegment hwal hcut, hopen,
    hlost⟩

end NodusDb.Lsm
