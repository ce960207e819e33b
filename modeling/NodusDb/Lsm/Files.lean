import NodusDb.Lsm.Ops

/-!
# What the manifest reaches

`Stored disk manifest layers segments`: the table files the manifest lists have the contents
`layers`, and the log segments from the active one back to the replay floor are `segments`, newest
first. Such a directory opens (`Stored.withWal`). `scan_chain_complete` says what recovery accepts
in any directory. The rest says how each step of the engine moves from one description to the next.
-/

namespace NodusDb.Lsm

open List Nat

/-! ## The chain of segments -/

/-- The segments from `id` back to the replay floor. With floor 0 the chain ends
in the first segment, which has no header. -/
inductive Lineage (wals : OrdMap Nat Segment) (floor : Nat) : Nat → List Segment → Prop
  | first {id : Nat} {seg : Segment} (hget : wals.get? id = some seg)
      (hplain : ∀ r ∈ seg.records, r.isHeader = false) (hid : 0 < id) (hfloor : floor = 0) :
      Lineage wals floor id [seg]
  | atFloor {seg : Segment} {prev : Nat} {rs : List WalRecord} (hget : wals.get? floor = some seg)
      (hseg : seg.records = .segmentHeader (some prev) :: rs)
      (hplain : ∀ r ∈ rs, r.isHeader = false) (hprev : 0 < prev) (hlt : prev < floor) :
      Lineage wals floor floor [seg]
  | next {id prev : Nat} {seg : Segment} {rs : List WalRecord} {segs : List Segment}
      (hget : wals.get? id = some seg) (hseg : seg.records = .segmentHeader (some prev) :: rs)
      (hplain : ∀ r ∈ rs, r.isHeader = false) (hprev : 0 < prev) (hlt : prev < id)
      (hfloor : floor ≤ prev) (hrest : Lineage wals floor prev segs) :
      Lineage wals floor id (seg :: segs)

namespace Lineage

variable {wals wals' : OrdMap Nat Segment} {floor id : Nat} {segs : List Segment}

theorem pos (h : Lineage wals floor id segs) : 0 < id ∧ floor ≤ id := by
  cases h with
  | first _ _ hid hfloor => exact ⟨hid, hfloor ▸ zero_le id⟩
  | atFloor _ _ _ hprev hlt => exact ⟨hprev.trans hlt, le_rfl⟩
  | next _ _ _ hprev hlt hfloor _ => exact ⟨hprev.trans hlt, hfloor.trans hlt.le⟩

theorem head (h : Lineage wals floor id segs) :
    ∃ seg rest, segs = seg :: rest ∧ wals.get? id = some seg := by
  cases h with
  | first hget | atFloor hget | next hget => exact ⟨_, _, rfl, hget⟩

theorem frame (h : Lineage wals floor id segs) (hsame : ∀ j ≤ id, wals'.get? j = wals.get? j) :
    Lineage wals' floor id segs := by
  induction h with
  | first hget hplain hid hfloor => exact .first ((hsame _ le_rfl).trans hget) hplain hid hfloor
  | atFloor hget hseg hplain hprev hlt =>
    exact .atFloor ((hsame _ le_rfl).trans hget) hseg hplain hprev hlt
  | next hget hseg hplain hprev hlt hfloor _ ih =>
    exact .next ((hsame _ le_rfl).trans hget) hseg hplain hprev hlt hfloor
      (ih fun j hj => hsame j (hj.trans hlt.le))

theorem any_isHeader_eq_false {rs : List WalRecord} (h : ∀ r ∈ rs, r.isHeader = false) :
    rs.any (·.isHeader) = false := by
  rw [any_eq_false]
  intro r hr
  rw [h r hr]
  exact Bool.false_ne_true

theorem scanFrom (h : Lineage wals floor id segs) (hfuel : id ≤ fuel)
    (hvisited : ∀ v ∈ visited, id < v) :
    scanFrom wals floor fuel visited id = .ok (segs.map (·.records)) := by
  induction h generalizing fuel visited with
  | @first id seg hget hplain hid hfloor =>
    obtain ⟨fuel, rfl⟩ := exists_eq_succ_of_ne_zero (hid.trans_le hfuel).ne'
    have hnew : id ∉ visited := fun hv => lt_irrefl id (hvisited id hv)
    have htail := any_isHeader_eq_false fun r hr => hplain r (mem_of_mem_drop (i := 1) hr)
    have hpred : Segment.predecessor seg.records = none := by
      cases hrs : seg.records with
      | nil => rfl
      | cons r rs =>
        have := hplain r (hrs ▸ mem_cons_self)
        cases r <;> first | rfl | cases this
    rw [Lsm.scanFrom, if_neg hnew, hget]
    simp only [hpred, htail, hfloor]
    simp
  | @atFloor seg prev rs hget hseg hplain hprev hlt =>
    have hpos := hprev.trans hlt
    obtain ⟨fuel, rfl⟩ := exists_eq_succ_of_ne_zero (hpos.trans_le hfuel).ne'
    have hnew : floor ∉ visited := fun hv => lt_irrefl floor (hvisited floor hv)
    have hnewPrev : prev ∉ floor :: visited := by
      rw [mem_cons, not_or]
      exact ⟨hlt.ne, fun hv => lt_asymm hlt (hvisited prev hv)⟩
    have htail := any_isHeader_eq_false hplain
    rw [Lsm.scanFrom, if_neg hnew, hget]
    simp only [hseg, Segment.predecessor]
    rw [if_neg (by simp [htail]), if_neg (by simp [WalRecord.isHeader]), if_neg hnewPrev,
      if_neg (by simp [hprev, hlt]), if_pos (by simp [hpos])]
    rw [map_singleton, hseg]
  | @next id prev seg rs segs hget hseg hplain hprev hlt hfloor _ ih =>
    obtain ⟨fuel, rfl⟩ := exists_eq_succ_of_ne_zero ((hprev.trans hlt).trans_le hfuel).ne'
    have hnew : id ∉ visited := fun hv => lt_irrefl id (hvisited id hv)
    have hnewPrev : prev ∉ id :: visited := by
      rw [mem_cons, not_or]
      exact ⟨hlt.ne, fun hv => lt_asymm hlt (hvisited prev hv)⟩
    have htail := any_isHeader_eq_false hplain
    have hvisited' : ∀ v ∈ id :: visited, prev < v := by
      intro v hv
      rcases mem_cons.mp hv with rfl | hv
      · exact hlt
      · exact hlt.trans (hvisited v hv)
    rw [Lsm.scanFrom, if_neg hnew, hget]
    simp only [hseg, Segment.predecessor]
    rw [if_neg (by simp [htail]), if_neg (by simp [WalRecord.isHeader]), if_neg hnewPrev,
      if_neg (by simp [hprev, hlt]), if_neg (by omega), if_neg (by omega),
      ih (le_of_lt_succ (hlt.trans_le hfuel)) hvisited']
    rw [map_cons, hseg]
    rfl

theorem scanChain (h : Lineage wals floor id segs) :
    scanChain wals id floor = .ok (segs.map (·.records)) := by
  rw [Lsm.scanChain, if_pos h.pos]
  exact h.scanFrom le_rfl fun v hv => absurd hv not_mem_nil

theorem replace (h : Lineage wals floor id (seg :: segs))
    (hrec : ∃ rs, seg'.records = seg.records ++ rs ∧ ∀ r ∈ rs, r.isHeader = false) :
    Lineage (wals.insert id seg') floor id (seg' :: segs) := by
  obtain ⟨rs', hrs, hnew⟩ := hrec
  have hplain' : ∀ {rs : List WalRecord}, (∀ r ∈ rs, r.isHeader = false) →
      ∀ r ∈ rs ++ rs', r.isHeader = false := fun hp r hr =>
    (mem_append.mp hr).elim (hp r) (hnew r)
  have hget : (wals.insert id seg').get? id = some seg' := OrdMap.get?_insert_self _ _ _
  cases h with
  | first _ hplain hid hfloor =>
    exact .first hget (hrs ▸ hplain' hplain) hid hfloor
  | atFloor _ hseg hplain hprev hlt =>
    exact .atFloor hget (by rw [hrs, hseg, cons_append]) (hplain' hplain) hprev hlt
  | next _ hseg hplain hprev hlt hfloor hrest =>
    refine .next hget (by rw [hrs, hseg, cons_append]) (hplain' hplain) hprev hlt hfloor ?_
    exact hrest.frame fun j hj => OrdMap.get?_insert_of_ne (hj.trans_lt hlt).ne

end Lineage

section Scan

variable {wals : OrdMap Nat Segment} {floor id fuel fuel' : Nat} {visited : List Nat}

/-- The segment that the header of a segment names. -/
def predecessorOf (wals : OrdMap Nat Segment) (id : Nat) : Option Nat :=
  (wals.get? id).bind fun seg => Segment.predecessor seg.records

theorem scanFrom_fuel (hid : 0 < id) (hle : id ≤ fuel) (hle' : id ≤ fuel') :
    scanFrom wals floor fuel visited id = scanFrom wals floor fuel' visited id := by
  induction fuel generalizing fuel' visited id with
  | zero => omega
  | succ fuel ih =>
    obtain ⟨fuel', rfl⟩ := exists_eq_succ_of_ne_zero (hid.trans_le hle').ne'
    simp only [scanFrom]
    split
    · rfl
    split
    · rfl
    split
    · rfl
    split
    · rfl
    split
    next previous _ =>
      split
      · rfl
      split
      · rfl
      next hprev =>
      rw [not_not] at hprev
      rw [ih hprev.1 (by omega) (by omega : previous ≤ fuel')]
    · rfl

/-- The walk goes from each segment to the predecessor it names, and ends at the floor or,
without one, at a segment that names none. -/
theorem scanFrom_spec (h : scanFrom wals floor fuel visited id = .ok scans) :
    ∃ ids, List.Forall₂ (fun i records => (wals.get? i).map (·.records) = some records)
        (id :: ids) scans ∧
      (id :: ids).IsChain (fun i previous => predecessorOf wals i = some previous ∧ previous < i) ∧
      (if floor = 0 then predecessorOf wals ((id :: ids).getLast nofun) = none
        else (id :: ids).getLast nofun = floor) := by
  induction fuel generalizing visited id scans with
  | zero => cases h
  | succ fuel ih =>
    simp only [scanFrom] at h
    split at h
    · cases h
    split at h
    · cases h
    next seg hseg =>
    have hpred : predecessorOf wals id = Segment.predecessor seg.records := by
      rw [predecessorOf, hseg]
      rfl
    split at h
    · cases h
    split at h
    · cases h
    split at h
    next previous hprevious =>
      split at h
      · cases h
      split at h
      · cases h
      next hlt =>
      split at h
      next hfloor =>
        cases h
        refine ⟨[], by simp [hseg], .singleton _, ?_⟩
        rw [if_neg hfloor.1.ne']
        exact hfloor.2
      split at h
      · cases h
      cases hrest : scanFrom wals floor fuel (id :: visited) previous with
      | error e =>
        rw [hrest] at h
        cases h
      | ok rest =>
        rw [hrest] at h
        cases h
        obtain ⟨ids, hread, hchain, hend⟩ := ih hrest
        exact ⟨previous :: ids, .cons (by rw [hseg]; rfl) hread,
          .cons_cons ⟨hpred.trans hprevious, (not_not.mp hlt).2⟩ hchain, hend⟩
    next hprevious =>
      split at h
      next hfloor =>
        cases h
        refine ⟨[], by simp [hseg], .singleton _, ?_⟩
        rw [if_neg hfloor.1.ne']
        exact hfloor.2
      split at h
      · cases h
      next hfloor =>
      cases h
      refine ⟨[], by simp [hseg], .singleton _, ?_⟩
      rw [if_pos (Nat.eq_zero_of_not_pos hfloor)]
      exact hpred.trans hprevious

/-- Recovery ends, and the segments it returns are those from the active one through the
predecessors they name down to the replay floor, or without one to the first segment. -/
theorem scan_chain_complete (wals : OrdMap Nat Segment) (active floor : Nat) :
    (0 < active → ∀ fuel, active ≤ fuel →
      scanFrom wals floor fuel [] active = scanFrom wals floor active [] active) ∧
    ∀ scans, scanChain wals active floor = .ok scans →
      ∃ ids, (active :: ids).Pairwise (· > ·) ∧
        List.Forall₂ (fun i records => (wals.get? i).map (·.records) = some records)
          (active :: ids) scans ∧
        (active :: ids).IsChain (fun i previous => predecessorOf wals i = some previous) ∧
        (if floor = 0 then predecessorOf wals ((active :: ids).getLast nofun) = none
          else (active :: ids).getLast nofun = floor) := by
  refine ⟨fun hpos fuel hle => scanFrom_fuel hpos hle le_rfl, fun scans h => ?_⟩
  rw [scanChain] at h
  split at h
  · obtain ⟨ids, hread, hchain, hend⟩ := scanFrom_spec h
    have hsorted := hchain.imp fun i previous h => show i > previous from h.2
    exact ⟨ids, isChain_iff_pairwise.mp hsorted, hread, hchain.imp fun _ _ h => h.1, hend⟩
  · cases h

end Scan

/-! ## A directory and its manifest -/

/-- The file ids in use lie below `n`. -/
structure Disk.Below (disk : Disk) (n : Nat) : Prop where
  wals : ∀ id, disk.wals.get? id ≠ none → id < n
  ssts : ∀ id, disk.ssts.get? id ≠ none → id < n
  le : n ≤ u64Max

theorem Disk.Below.nextFileId (h : disk.Below n) (hp : publishedMax < n) :
    ∃ next, NodusDb.Lsm.nextFileId disk publishedMax = some next ∧ disk.Below next := by
  have hlt : (disk.wals.keys ++ disk.ssts.keys).foldl max publishedMax < n := by
    refine foldl_max_lt (fun x hx => ?_) hp
    rcases mem_append.mp hx with hx | hx
    · exact h.wals x (OrdMap.mem_keys.mp hx)
    · exact h.ssts x (OrdMap.mem_keys.mp hx)
  have hle : (disk.wals.keys ++ disk.ssts.keys).foldl max publishedMax + 1 ≤ u64Max :=
    succ_le_of_lt (hlt.trans_le h.le)
  refine ⟨_, by rw [NodusDb.Lsm.nextFileId]; exact if_pos hle, ?_, ?_, hle⟩
  · intro id hid
    exact lt_succ_of_le
      (le_foldl_max (.inl (mem_append_left _ (OrdMap.mem_keys.mpr hid))))
  · intro id hid
    exact lt_succ_of_le
      (le_foldl_max (.inl (mem_append_right _ (OrdMap.mem_keys.mpr hid))))

section Stored

variable [ChainCodec]

structure Stored (disk : Disk) (m : Manifest) (layers : List Layer)
    (segs : List Segment) : Prop where
  manifest : disk.manifest = some m
  ordered : m.sstables.Pairwise (· < ·)
  tables : List.Forall₂ (fun id data => disk.ssts.get? id = some (Sstable.build data))
    m.sstables.reverse layers
  lineage : Lineage disk.wals m.minReplayWal m.activeWal segs

variable {disk : Disk} {m : Manifest} {layers : List Layer}
  {segs : List Segment} {n : Nat}

section

variable (h : Stored disk m layers segs)
include h

theorem Stored.sst_mem {id : Nat} (hid : id ∈ m.sstables) : disk.ssts.get? id ≠ none := by
  have hall : ∀ {ids : List Nat} {ls : List Layer},
      List.Forall₂ (fun id data => disk.ssts.get? id = some (Sstable.build data)) ids ls →
      ∀ id ∈ ids, disk.ssts.get? id ≠ none := by
    intro ids ls hf
    induction hf with
    | nil => exact fun id hid => absurd hid not_mem_nil
    | cons hget _ ih =>
      intro id hid
      rcases mem_cons.mp hid with rfl | hid
      · rw [hget]
        exact Option.some_ne_none _
      · exact ih id hid
  exact hall h.tables id (mem_reverse.mpr hid)

theorem Stored.wal_mem : disk.wals.get? m.activeWal ≠ none := by
  obtain ⟨seg, rest, -, hget⟩ := h.lineage.head
  rw [hget]
  exact Option.some_ne_none seg

theorem Stored.withWal (hb : disk.Below n) (now : Nat) :
    ∃ next, disk.Below next ∧
      LsmKvEngine.withWal disk now = .ok
        ⟨disk, replay now (segs.map (·.records)), m.sstables, m.activeWal, m.minReplayWal, next,
          storeBytes (replay now (segs.map (·.records))).store, defaultFlushThreshold, 0⟩ := by
  have hsorted : m.sstables.insertionSort (· ≤ ·) = m.sstables :=
    (h.ordered.imp fun hlt => hlt.le).insertionSort_eq
  have hmax : m.sstables.foldl max m.activeWal < n :=
    foldl_max_lt (fun id hid => hb.ssts id (h.sst_mem hid)) (hb.wals _ h.wal_mem)
  obtain ⟨next, hnext, hbelow⟩ := hb.nextFileId hmax
  refine ⟨next, hbelow, ?_⟩
  have hdisk : { disk with manifest := some ⟨m.activeWal, m.sstables, m.minReplayWal⟩ } = disk := by
    rw [← h.manifest]
  unfold LsmKvEngine.withWal
  rw [h.manifest]
  simp only [hsorted, hnext, h.lineage.scanChain]
  rw [LsmKvEngine.saveManifest, hdisk]

theorem Stored.readTables :
    LsmKvEngine.readTables disk m.sstables = .ok (layers.reverse.map Sstable.build) := by
  have hread : ∀ {ids : List Nat} {ls : List Layer},
      List.Forall₂ (fun id data => disk.ssts.get? id = some (Sstable.build data)) ids ls →
      LsmKvEngine.readTables disk ids = .ok (ls.map Sstable.build) := by
    intro ids ls hf
    unfold LsmKvEngine.readTables
    induction hf with
    | nil => rfl
    | cons hget _ ih =>
      rw [mapM_cons, ih, hget]
      rfl
  refine hread ?_
  have := forall₂_reverse_iff.mpr h.tables
  rwa [reverse_reverse] at this

end

end Stored

/-! ## The steps of the engine -/

namespace LsmKvEngine

variable [ChainCodec]

/-- The manifest as the engine would save it. -/
def manifestOf (s : LsmKvEngine) : Manifest := ⟨s.activeWal, s.sstables, s.minReplayWal⟩

structure OnDisk (s : LsmKvEngine) (layers : List Layer)
    (segs : List Segment) : Prop where
  stored : Stored s.disk s.manifestOf layers segs
  below : s.disk.Below s.nextFileId

variable {s s1 s2 : LsmKvEngine} {layers : List Layer}
  {segs rest : List Segment} {seg : Segment}

theorem OnDisk.tables (h : s.OnDisk layers segs) :
    List.Forall₂ (fun id data => s.disk.ssts.get? id = some (Sstable.build data))
      s.sstables.reverse layers :=
  h.stored.tables

theorem OnDisk.readTables (h : s.OnDisk layers segs) :
    readTables s.disk s.sstables = .ok (layers.reverse.map Sstable.build) :=
  h.stored.readTables

theorem onDisk_fresh : fresh.OnDisk [] [⟨[], 0⟩] := by
  refine ⟨⟨rfl, List.Pairwise.nil, List.Forall₂.nil, ?_⟩, ?_, ?_, by decide⟩
  · exact .first rfl (fun r hr => absurd hr not_mem_nil) (by decide) rfl
  · intro id hid
    by_cases h1 : id = 1
    · rw [h1]; decide
    refine absurd ?_ hid
    show (OrdMap.empty.insert 1 _).get? id = none
    rw [OrdMap.get?_insert_of_ne h1]
    rfl
  · exact fun id hid => absurd rfl hid

theorem reopen_onDisk {disk : Disk} {m : Manifest} {n : Nat} (h : Stored disk m layers segs)
    (hb : disk.Below n) (now : Nat) :
    ∃ r, withWal disk now = .ok r ∧ r.OnDisk layers segs ∧
      r.table = replay now (segs.map (·.records)) ∧ r.gcWatermark = 0 ∧
      r.minReplayWal = m.minReplayWal := by
  obtain ⟨next, hnext, hopen⟩ := h.withWal hb now
  exact ⟨_, hopen, ⟨h, hnext⟩, rfl, rfl, rfl⟩

theorem OnDisk.addMemtableBytes (h : s.OnDisk layers segs) (n : Nat) :
    (s.addMemtableBytes n).OnDisk layers segs :=
  ⟨h.stored, h.below⟩

theorem OnDisk.activeSegment (h : s.OnDisk layers (seg :: rest)) : s.activeSegment = seg := by
  obtain ⟨seg', rest', heq, hget⟩ := h.stored.lineage.head
  cases heq
  show (s.disk.wals.get? s.activeWal).getD _ = seg
  rw [show s.disk.wals.get? s.activeWal = some seg from hget]
  rfl

theorem OnDisk.setActiveSegment (h : s.OnDisk layers (seg :: rest)) (seg' : Segment)
    (hrec : ∃ rs, seg'.records = seg.records ++ rs ∧ ∀ r ∈ rs, r.isHeader = false) :
    (s.setActiveSegment seg').OnDisk layers (seg' :: rest) := by
  refine ⟨⟨h.stored.manifest, h.stored.ordered, h.stored.tables, h.stored.lineage.replace hrec⟩,
    fun id hid => ?_, h.below.ssts, h.below.le⟩
  by_cases hact : id = s.activeWal
  · rw [hact]
    exact h.below.wals _ h.stored.wal_mem
  · refine h.below.wals id fun hnone => hid ?_
    exact (OrdMap.get?_insert_of_ne hact).trans hnone

theorem OnDisk.logMutation (h : s.OnDisk layers (seg :: rest)) (m : Mutation) :
    (s.logMutation m).OnDisk layers
      (⟨seg.records ++ logged s.table m,
        if m.syncs then (seg.records ++ logged s.table m).length else seg.synced⟩ :: rest) := by
  have happend : (if (logged s.table m).isEmpty then s else s.append (logged s.table m)).OnDisk
      layers (⟨seg.records ++ logged s.table m, seg.synced⟩ :: rest) := by
    split
    next he =>
      rw [isEmpty_iff.mp he, append_nil]
      exact h
    have := h.setActiveSegment (seg.append (logged s.table m))
      ⟨_, rfl, isHeader_logged s.table m⟩
    rw [← h.activeSegment] at this
    rw [← h.activeSegment]
    exact this
  have hsync := happend.setActiveSegment
    (⟨seg.records ++ logged s.table m, seg.synced⟩ : Segment).sync
    ⟨[], (append_nil _).symm, fun r hr => absurd hr not_mem_nil⟩
  unfold LsmKvEngine.logMutation
  simp only
  split
  · rw [sync, happend.activeSegment]
    exact ⟨hsync.stored, hsync.below⟩
  · exact ⟨happend.stored, happend.below⟩

theorem tables_frame {ssts ssts' : OrdMap Nat Sstable} {ids : List Nat}
    (h : List.Forall₂ (fun id data => ssts.get? id = some (Sstable.build data)) ids layers)
    (hsame : ∀ id ∈ ids, ssts'.get? id = ssts.get? id) :
    List.Forall₂ (fun id data => ssts'.get? id = some (Sstable.build data)) ids layers := by
  induction h with
  | nil => exact .nil
  | cons hget _ ih =>
    exact .cons ((hsame _ mem_cons_self).trans hget)
      (ih fun id hid => hsame id (mem_cons_of_mem _ hid))

section

variable (h : s.OnDisk layers segs)
include h

theorem OnDisk.sst_lt {id : Nat} (hid : id ∈ s.sstables) : id < s.nextFileId :=
  h.below.ssts id (h.stored.sst_mem hid)

theorem OnDisk.wal_lt : s.activeWal < s.nextFileId :=
  h.below.wals _ h.stored.wal_mem

theorem OnDisk.buildSst {data : Layer} {id : Nat} (hb : s.buildSst data = some (id, s1)) :
    s1.OnDisk layers segs := by
  obtain ⟨rfl, hle, rfl⟩ := buildSst_inv hb
  refine ⟨⟨h.stored.manifest, h.stored.ordered, ?_, h.stored.lineage⟩, ?_, ?_, hle⟩
  · refine tables_frame h.stored.tables fun id hid => OrdMap.get?_insert_of_ne ?_
    exact (h.sst_lt (mem_reverse.mp hid)).ne
  · exact fun id hid => lt_succ_of_lt (h.below.wals id hid)
  intro id hid
  by_cases hnew : id = s.nextFileId
  · rw [hnew]
    exact lt_succ_self _
  · refine lt_succ_of_lt (h.below.ssts id fun hnone => hid ?_)
    exact (OrdMap.get?_insert_of_ne hnew).trans hnone

def flushedLayers (data : Layer) (newSst : Option Nat)
    (layers : List Layer) :
    List Layer :=
  (newSst.map fun _ => data).toList ++ layers

theorem OnDisk.builtFor (hb : s.BuiltFor newSst s1) :
    s1.OnDisk layers segs ∧ s1.sstables = s.sstables ∧ s1.activeWal = s.activeWal ∧
    s1.minReplayWal = s.minReplayWal ∧ s1.table = s.table ∧ s1.gcWatermark = s.gcWatermark ∧
    ∀ id ∈ newSst, s1.disk.ssts.get? id = some (Sstable.build s.toFlush) ∧ id < s1.nextFileId ∧
      ∀ j ∈ s.sstables, j < id := by
  rcases hb with ⟨rfl, -, rfl⟩ | ⟨id, rfl, hb⟩
  · exact ⟨h, rfl, rfl, rfl, rfl, rfl, fun id hid => by cases hid⟩
  have hd := h.buildSst hb
  obtain ⟨rfl, -, rfl⟩ := buildSst_inv hb
  refine ⟨hd, rfl, rfl, rfl, rfl, rfl, fun id hid => ?_⟩
  cases hid
  exact ⟨OrdMap.get?_insert_self _ _ _, lt_succ_self _, fun j hj => h.sst_lt hj⟩

/-- A published flush: the new table file is the top layer, and the log starts
again unless keys were retained. -/
theorem OnDisk.publishFlush (hb : s.BuiltFor newSst s1)
    (hal : s1.allocateFileId = some (walId, s2)) (retained : Bool) :
    (s2.publishFlush walId newSst retained).OnDisk (flushedLayers s.toFlush newSst layers)
      (⟨[.segmentHeader (some s.activeWal)], 1⟩ :: if retained then segs else []) := by
  obtain ⟨h1, hids, hact, hfloor, -, -, hnew⟩ := h.builtFor hb
  obtain ⟨rfl, hle, rfl⟩ := allocateFileId_inv hal
  have hlt := h1.wal_lt
  have hpos := h1.stored.lineage.pos
  rw [← hact]
  refine ⟨⟨rfl, ?_, ?_, ?_⟩, ?_, ?_, hle⟩
  · -- The new id is above all listed ones.
    show (s1.sstables ++ newSst.toList).Pairwise (· < ·)
    rw [hids]
    refine pairwise_append.mpr ⟨h.stored.ordered, ?_, fun j hj id hid => ?_⟩
    · cases newSst <;> simp
    · exact (hnew id (Option.mem_toList.mp hid)).2.2 j hj
  · show List.Forall₂ _ (s1.sstables ++ newSst.toList).reverse _
    rw [reverse_append]
    cases newSst with
    | none => exact h1.stored.tables
    | some id => exact .cons (hnew id rfl).1 h1.stored.tables
  · have hget : (s1.disk.wals.insert s1.nextFileId
        ⟨[.segmentHeader (some s1.activeWal)], 1⟩).get? s1.nextFileId = some _ :=
      OrdMap.get?_insert_self _ _ _
    show Lineage _ (if retained then s1.minReplayWal else s1.nextFileId) s1.nextFileId _
    cases retained with
    | true =>
      refine .next hget rfl (fun r hr => absurd hr not_mem_nil) hpos.1 hlt hpos.2 ?_
      exact h1.stored.lineage.frame fun j hj => OrdMap.get?_insert_of_ne (hj.trans_lt hlt).ne
    | false => exact .atFloor hget rfl (fun r hr => absurd hr not_mem_nil) hpos.1 hlt
  · intro id hid
    by_cases hw : id = s1.nextFileId
    · rw [hw]
      exact lt_succ_self _
    · refine lt_succ_of_lt (h1.below.wals id fun hnone => hid ?_)
      exact (OrdMap.get?_insert_of_ne hw).trans hnone
  · exact fun id hid => lt_succ_of_lt (h1.below.ssts id hid)

theorem OnDisk.compactInner :
    s.compactInner.1 = s ∨
    (s.compactInner.1.OnDisk [compacted s.gcWatermark (layers.reverse.map Sstable.build)] segs ∧
      s.compactInner.1.table = s.table ∧ s.compactInner.1.gcWatermark = s.gcWatermark ∧
      s.compactInner.1.minReplayWal = s.minReplayWal ∧
      s.compactInner.1.activeWal = s.activeWal) := by
  rcases s.compactInner_cases with hs | ⟨tables, newId, s1, hread, hb, hs⟩
  · exact .inl hs
  right
  have hsorted : s.sstables.insertionSort (· ≤ ·) = s.sstables :=
    (h.stored.ordered.imp fun hlt => hlt.le).insertionSort_eq
  rw [hsorted, h.readTables] at hread
  cases hread
  have h1 := h.buildSst hb
  obtain ⟨rfl, hle, rfl⟩ := buildSst_inv hb
  rw [hs]
  refine ⟨⟨⟨rfl, pairwise_singleton _ _, ?_, h.stored.lineage⟩, ?_, ?_, hle⟩, rfl, rfl, rfl, rfl⟩
  · refine .cons ?_ .nil
    show ((s.disk.ssts.insert s.nextFileId _).filter _).get? s.nextFileId = _
    have hfree : s.nextFileId ∉ s.sstables := fun hmem => lt_irrefl _ (h.sst_lt hmem)
    rw [OrdMap.get?_filter, OrdMap.get?_insert_self]
    simp [hfree]
  · exact fun id hid => lt_succ_of_lt (h.below.wals id hid)
  · intro id hid
    refine h1.below.ssts id fun hnone => hid ?_
    show ((s.disk.ssts.insert s.nextFileId _).filter _).get? id = none
    rw [OrdMap.get?_filter, show (s.disk.ssts.insert s.nextFileId _).get? id = none from hnone]
    rfl

end

end LsmKvEngine

end NodusDb.Lsm
