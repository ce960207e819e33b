import NodusDb.Lsm.Refinement

/-!
# The whole log

A rotation starts a new segment and leaves the old ones in place, so the directory
keeps every record ever appended, in the order of the segment numbers. A call appends
what it logs, and a flush a header.
-/

namespace NodusDb.Lsm

open OrdMap List

/-- The calls that write, resolve, rotate and compact: no savepoint, no batch of
writes, no collection and no reopen. -/
def Op.isPlain : Op → Bool
  | .mutate (.writeIntent ..) | .mutate (.deleteIntent ..) | .mutate (.commit ..)
  | .mutate (.commitBatch _) | .mutate (.abort _) | .flush | .compact | .setFlushThreshold _ => true
  | _ => false

namespace LsmKvEngine

/-- All records, from the first segment to the active one. -/
def walRecords (s : LsmKvEngine) : List WalRecord := s.disk.wals.values.flatMap (·.records)

structure LastActive (s : LsmKvEngine) : Prop where
  le : ∀ id, s.disk.wals.get? id ≠ none → id ≤ s.activeWal
  mem : s.disk.wals.get? s.activeWal ≠ none

def loggedBy (s : LsmKvEngine) : Op → List WalRecord
  | .mutate m => logged s.table m
  | _ => []

/-- The log grows by these records, and perhaps a header. -/
def Extends (s s' : LsmKvEngine) (records : List WalRecord) : Prop :=
  LastActive s' ∧ ∃ headers, (∀ r ∈ headers, r.isHeader = true) ∧
    s'.walRecords = s.walRecords ++ records ++ headers

section Files

variable {s s' : LsmKvEngine}

theorem lastActive_fresh : LastActive fresh := by
  refine ⟨fun id hid => ?_, by decide⟩
  by_contra hlt
  refine hid ?_
  show (empty.insert 1 _).get? id = none
  rw [get?_insert_of_ne]
  · rfl
  · rintro rfl
    exact hlt le_rfl

section

variable (h : LastActive s)
include h

theorem LastActive.walRecords_eq :
    s.walRecords = (s.disk.wals.erase s.activeWal).values.flatMap (·.records) ++
      s.activeSegment.records := by
  obtain ⟨seg, hseg⟩ := Option.ne_none_iff_exists'.mp h.mem
  have hsame : s.disk.wals.insert s.activeWal seg = s.disk.wals := by
    refine ext_get fun k => ?_
    rw [get?_insert]
    split
    next hk => rw [hk, hseg]
    · rfl
  have hentries := entries_insert_last seg h.le
  rw [hsame] at hentries
  have hactive : s.activeSegment = seg := by rw [activeSegment, hseg, Option.getD_some]
  rw [walRecords, values, hentries, hactive]
  simp [values]

theorem LastActive.setActiveSegment (seg : Segment) :
    LastActive (s.setActiveSegment seg) ∧
      (s.setActiveSegment seg).walRecords =
        (s.disk.wals.erase s.activeWal).values.flatMap (·.records) ++ seg.records := by
  refine ⟨⟨fun id hid => ?_, ?_⟩, ?_⟩
  · by_cases hid' : id = s.activeWal
    · exact hid'.le
    · refine h.le id ?_
      rwa [show (s.setActiveSegment seg).disk.wals.get? id = s.disk.wals.get? id from
        get?_insert_of_ne hid'] at hid
  · show (s.disk.wals.insert s.activeWal seg).get? s.activeWal ≠ none
    rw [get?_insert_self]
    nofun
  · show (s.disk.wals.insert s.activeWal seg).values.flatMap (·.records) = _
    rw [values, entries_insert_last seg h.le]
    simp [values]

theorem LastActive.append (rs : List WalRecord) :
    LastActive (s.append rs) ∧ (s.append rs).walRecords = s.walRecords ++ rs := by
  obtain ⟨hlast, hrecords⟩ := h.setActiveSegment (s.activeSegment.append rs)
  refine ⟨hlast, hrecords.trans ?_⟩
  rw [h.walRecords_eq, append_assoc]
  rfl

theorem LastActive.sync : LastActive s.sync ∧ s.sync.walRecords = s.walRecords := by
  obtain ⟨hlast, hrecords⟩ := h.setActiveSegment s.activeSegment.sync
  refine ⟨hlast, hrecords.trans ?_⟩
  rw [h.walRecords_eq]
  rfl

theorem LastActive.congr (hwals : t.disk.wals = s.disk.wals) (hactive : t.activeWal = s.activeWal) :
    LastActive t ∧ t.walRecords = s.walRecords := by
  refine ⟨⟨?_, ?_⟩, ?_⟩
  · rw [hwals, hactive]
    exact h.le
  · rw [hwals, hactive]
    exact h.mem
  · rw [walRecords, hwals, walRecords]

theorem LastActive.logMutation (m : Mutation) :
    LastActive (s.logMutation m) ∧
      (s.logMutation m).walRecords = s.walRecords ++ logged s.table m := by
  have happend : ∀ s',
      s' = (if (logged s.table m).isEmpty then s else s.append (logged s.table m)) →
      LastActive s' ∧ s'.walRecords = s.walRecords ++ logged s.table m := by
    rintro s' rfl
    split
    next hempty =>
      rw [isEmpty_iff.mp hempty, append_nil]
      exact ⟨h, rfl⟩
    · exact h.append _
  obtain ⟨hlast, hrecords⟩ := happend _ rfl
  unfold LsmKvEngine.logMutation
  simp only
  split
  · obtain ⟨hlast', hrecords'⟩ := hlast.sync
    exact ⟨⟨hlast'.le, hlast'.mem⟩, hrecords'.trans hrecords⟩
  · exact ⟨⟨hlast.le, hlast.mem⟩, hrecords⟩

theorem Extends.refl : Extends s s [] :=
  ⟨h, [], fun _ hr => absurd hr not_mem_nil, by simp⟩

end

theorem Extends.of_eq (h : LastActive s') {records : List WalRecord}
    (hrecords : s'.walRecords = s.walRecords ++ records) : Extends s s' records :=
  ⟨h, [], fun _ hr => absurd hr not_mem_nil, by rw [hrecords, append_nil]⟩

theorem Extends.then {records : List WalRecord}
    (hrecords : s'.walRecords = s.walRecords ++ records) (h : Extends s' s'' []) :
    Extends s s'' records := by
  obtain ⟨hlast, headers, hheaders, heq⟩ := h
  exact ⟨hlast, headers, hheaders, by rw [heq, hrecords, append_nil]⟩

theorem extends_publishFlush (hlt : ∀ id, s.disk.wals.get? id ≠ none → id < walId)
    (newSst : Option Nat) (retained : Bool) :
    Extends s (s.publishFlush walId newSst retained) [] := by
  have hwals : (s.publishFlush walId newSst retained).disk.wals =
      s.disk.wals.insert walId ⟨[.segmentHeader (some s.activeWal)], 1⟩ := rfl
  have hactive : (s.publishFlush walId newSst retained).activeWal = walId := rfl
  refine ⟨⟨fun id hget => ?_, ?_⟩, [.segmentHeader (some s.activeWal)], ?_, ?_⟩
  · rw [hwals, get?_insert] at hget
    rw [hactive]
    split at hget
    next heq => exact heq.le
    · exact (hlt id hget).le
  · rw [hwals, hactive, get?_insert_self]
    nofun
  · intro r hr
    rw [mem_singleton.mp hr]
    rfl
  · have herase : s.disk.wals.erase walId = s.disk.wals := by
      refine ext_get fun k => ?_
      rw [get?_erase]
      split
      next hk =>
        by_contra hne
        exact absurd (hlt k (Ne.symm hne)) (by rw [hk]; exact lt_irrefl _)
      · rfl
    rw [walRecords, hwals, values, entries_insert_last _ fun id hget => (hlt id hget).le, herase]
    simp [walRecords, values]

variable [ChainCodec]

theorem LastActive.compactInner (h : LastActive s) : Extends s s.compactInner.1 [] := by
  rcases s.compactInner_cases with hs | ⟨tables, newId, s1, -, hb, hs⟩
  · rw [hs]
    exact .refl h
  obtain ⟨-, -, rfl⟩ := buildSst_inv hb
  rw [hs]
  obtain ⟨hlast, hrecords⟩ := h.congr (t := { s with
    nextFileId := s.nextFileId + 1
    sstables := [newId]
    disk := { s.disk with
      manifest := some ⟨s.activeWal, [newId], s.minReplayWal⟩
      ssts := (s.disk.ssts.insert newId
        (Sstable.build (compacted s.gcWatermark tables))).filter fun id _ =>
          decide (id ∉ s.sstables) } }) rfl rfl
  exact .of_eq hlast (by rw [hrecords, append_nil])

theorem LastActive.flushInner (h : LastActive s) (hbelow : s.disk.Below s.nextFileId) :
    Extends s s.flushInner.1 [] := by
  have hbuilt : ∀ {newSst s1}, s.BuiltFor newSst s1 →
      s1.disk.wals = s.disk.wals ∧ s1.activeWal = s.activeWal := by
    rintro newSst s1 (⟨-, -, rfl⟩ | ⟨id, -, hb⟩)
    · exact ⟨rfl, rfl⟩
    · obtain ⟨-, -, rfl⟩ := buildSst_inv hb
      exact ⟨rfl, rfl⟩
  rcases s.flushInner_cases with hs | ⟨id, s1, hb, -, hs⟩ |
    ⟨-, newSst, s1, walId, s2, hb, hal, hs⟩
  · rw [hs]
    exact .refl h
  · rw [hs]
    obtain ⟨hwals, hactive⟩ := hbuilt (.inr ⟨id, rfl, hb⟩)
    obtain ⟨hlast, hrecords⟩ := h.congr hwals hactive
    exact .of_eq hlast (by rw [hrecords, append_nil])
  obtain ⟨hwals, hactive⟩ := hbuilt hb
  have hids := hb.ids.2
  obtain ⟨rfl, -, rfl⟩ := allocateFileId_inv hal
  have hlt : ∀ id, s1.disk.wals.get? id ≠ none → id < s1.nextFileId := by
    intro id hget
    rw [hwals] at hget
    exact (hbelow.wals id hget).trans_le hids
  have hsame : walRecords { s1 with nextFileId := s1.nextFileId + 1 } = s.walRecords := by
    rw [walRecords, walRecords, hwals]
  have hpublish : Extends s (LsmKvEngine.publishFlush
      { s1 with nextFileId := s1.nextFileId + 1 } s1.nextFileId newSst s.retains) [] := by
    have hrotate := extends_publishFlush (s := { s1 with nextFileId := s1.nextFileId + 1 }) hlt
      newSst s.retains
    exact Extends.then (by rw [hsame, append_nil]) hrotate
  rcases hs with hs | hs
  · rw [hs]
    exact hpublish
  -- A compaction leaves the log alone.
  rw [hs]
  obtain ⟨hlast, headers, hheaders, hrecords⟩ := hpublish
  obtain ⟨hlast', headers', hheaders', hrecords'⟩ := hlast.compactInner
  refine ⟨hlast', headers ++ headers', fun r hr => ?_, ?_⟩
  · rcases mem_append.mp hr with hr | hr
    · exact hheaders r hr
    · exact hheaders' r hr
  · rw [hrecords', hrecords, append_nil, append_nil, append_assoc]

theorem apply_walRecords (hop : op.isPlain = true) (h : LastActive s)
    (hdisk : s.OnDisk layers segs) (happly : s.apply op = some s') :
    Extends s s' (s.loggedBy op) := by
  cases op with
  | mutate m =>
    cases happly
    obtain ⟨hlast, hrecords⟩ := h.logMutation m
    rcases s.mutate_cases m with hm | ⟨n, hm⟩
    · rw [hm]
      exact .of_eq hlast hrecords
    rw [hm]
    have hlast' : LastActive ((s.logMutation m).addMemtableBytes n) := ⟨hlast.le, hlast.mem⟩
    have hrecords' : ((s.logMutation m).addMemtableBytes n).walRecords =
        s.walRecords ++ logged s.table m := hrecords
    unfold maybeFlushBySize
    split
    · obtain ⟨seg, rest, rfl, -⟩ := hdisk.stored.lineage.head
      exact Extends.then hrecords' (hlast'.flushInner (hdisk.logMutation m).below)
    · exact .of_eq hlast' hrecords'
  | flush =>
    cases happly
    exact h.flushInner hdisk.below
  | compact =>
    cases happly
    exact h.compactInner
  | setFlushThreshold bytes =>
    cases happly
    obtain ⟨hlast, hrecords⟩ := h.congr (t := s.setFlushThreshold bytes) rfl rfl
    exact .of_eq hlast (hrecords.trans (append_nil _).symm)
  | garbageCollect watermark => cases hop
  | reopen now => cases hop

end Files

end LsmKvEngine

end NodusDb.Lsm
