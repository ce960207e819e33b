import NodusDb.Sharding.Partition
import NodusDb.Storage.Namespaced
import NodusDb.Raft.JournalReads

/-!
# Routed reads

A server reads each key from the group that owns it. A scan finds its groups from the table that its
start names, once, and then reads the ranges of the shards one after the other.

* `scan_matches_gets`: a scan misses no row exactly when the range is read from the groups of its
  keys.
* `scan_misses_row`: a scan that starts before the keys of a sharded table misses them.
-/

namespace NodusDb

open NamespacedKvEngine List Result

/-- Read the hyphenated text of an id in either case, `Uuid::parse_str` on 36 bytes. -/
def Uuid.parseStr (text : Bytes) : Option Uuid :=
  Uuid.parse (text.map fun c => if 65 ≤ c ∧ c ≤ 70 then c + 32 else c)

/-- The table of a row key; index keys and other keys have none. -/
def parseTableId (key : Bytes) : Option TableId :=
  if key[36]? = some 58 then Uuid.parseStr (key.take 36) else none

/-- `MultiRaftManager::data_group_id`. -/
def dataGroupId (shard : ShardId) : Bytes := ascii "shard-" ++ shard.toText

/-- The store of a server, the shard maps it routes by and the groups it hosts. -/
structure RaftKvEngine (V : Type) where
  store : MemKvEngine V
  shardRouter : MemMetaStore
  hosted : List Bytes

namespace RaftKvEngine

open Raft (shardMeta)
open RoutingSnapshot (locateKey intersect)

variable {V : Type}

def requireHost (e : RaftKvEngine V) (group : Bytes) : Result Unit :=
  ensure (group = shardMeta ∨ group ∈ e.hosted) "shard unavailable: not hosted on this node"

/-- The group that a snapshot of the routing gives a key. -/
def ownerGroup (snapshot : Option (List Range)) (key : Bytes) : Result Bytes :=
  match snapshot with
  | some ranges => (locateKey ranges key).map dataGroupId
  | none => .ok shardMeta

def groupOf (e : RaftKvEngine V) (key : Bytes) : Result Bytes :=
  match parseTableId key with
  | some table => do ownerGroup (← e.shardRouter.snapshot table) key
  | none => .ok shardMeta

def route (e : RaftKvEngine V) (key : Bytes) : Result Bytes := do
  let group ← e.groupOf key
  e.requireHost group
  pure group

/-- The meta group reads the store itself, a data group its namespace. -/
def getFrom (e : RaftKvEngine V) (group key : Bytes) (readTs : Nat) : Option V :=
  if group = shardMeta then e.store.get key readTs
  else (NamespacedKvEngine.new group).get e.store key readTs

def scanFrom (e : RaftKvEngine V) (group : Bytes) (range : KeyRange) (readTs : Nat) :
    Except ReadFault (List (KvPair V)) :=
  if group = shardMeta then e.store.scan range.start range.stop readTs
  else (NamespacedKvEngine.new group).scan e.store range readTs

def get (e : RaftKvEngine V) (key : Bytes) (readTs : Nat) : Result (Option V) := do
  let group ← e.route key
  pure (e.getFrom group key readTs)

/-- The snapshot a scan is routed by: that of the table its start names. -/
def scanSnapshot (e : RaftKvEngine V) (range : KeyRange) : Result (Option (List Range)) :=
  match parseTableId range.start with
  | some table => e.shardRouter.snapshot table
  | none => .ok none

/-- A scan that starts in a table must end in it. -/
def checkSpan (range : KeyRange) : Result Unit :=
  match parseTableId range.start with
  | some table =>
    ensure (range.stop ≤ table.toText ++ ascii ";")
      "unsupported row scan spanning multiple tables; scan each table separately"
  | none => pure ()

def cutRange (snapshot : Option (List Range)) (range : KeyRange) : List (Bytes × KeyRange) :=
  match snapshot with
  | some ranges => (intersect ranges range).map fun p => (dataGroupId p.1, p.2)
  | none => [(shardMeta, range)]

def cutRoutes (snapshot : Option (List Range)) (range : KeyRange) :
    Result (List (Bytes × KeyRange)) :=
  if range.stop ≤ range.start then pure []
  else do
    checkSpan range
    pure (cutRange snapshot range)

def scanRoutes (e : RaftKvEngine V) (range : KeyRange) : Result (List (Bytes × KeyRange)) := do
  let snapshot ← e.scanSnapshot range
  let routes ← cutRoutes snapshot range
  -- The guard. As long as the routing stays as it is, later checks pass too.
  routes.forM fun p => e.requireHost p.1
  pure routes

def scan (e : RaftKvEngine V) (range : KeyRange) (readTs : Nat) :
    Result (Except ReadFault (List (KvPair V))) := do
  let routes ← e.scanRoutes range
  pure ((routes.mapM fun p => e.scanFrom p.1 p.2 readTs).map List.flatten)

section Scan

open NamespacedKvEngine (ReadsOf readsOf_scan readsOf_namespaced_scan)

variable {e : RaftKvEngine V} {range : KeyRange} {routes : List (Bytes × KeyRange)} {readTs : Nat}

/-- The group that a scan of the range reads a key from. -/
def scanGroup (e : RaftKvEngine V) (range : KeyRange) (key : Bytes) : Result Bytes := do
  ownerGroup (← e.scanSnapshot range) key

def IsGroup (group : Bytes) : Prop := group = shardMeta ∨ ∃ shard, group = dataGroupId shard

/-- Rows are in the groups that their keys are routed to. -/
def Placed (e : RaftKvEngine V) : Prop :=
  ∀ group, IsGroup group → ∀ key readTs value, e.getFrom group key readTs = some value →
    e.groupOf key = .ok group

/-- The parts of a range, each with the group it is read from. -/
structure IsCut (e : RaftKvEngine V) (range : KeyRange) (routes : List (Bytes × KeyRange)) :
    Prop where
  ordered : routes.Pairwise fun p q => p.2.stop ≤ q.2.start
  union : ∀ key, (∃ p ∈ routes, p.2.Contains key) ↔ range.Contains key
  proper : ∀ p ∈ routes, p.2.start ≤ p.2.stop
  group : ∀ p ∈ routes, IsGroup p.1 ∧ e.requireHost p.1 = .ok ()
  owner : ∀ p ∈ routes, ∀ key, p.2.Contains key → e.scanGroup range key = .ok p.1

variable {table : TableId} {key : Bytes}

theorem snapshot_cover {store : MemMetaStore} {ranges : List Range}
    (h : store.snapshot table = .ok (some ranges)) :
    ∃ shards, ShardCover table shards ∧ ranges = shards.map ShardDescriptor.range := by
  unfold MemMetaStore.snapshot at h
  split at h
  next map _ =>
    cases hmap : RoutingSnapshot.fromMap table map with
    | error error =>
      rw [hmap] at h
      cases h
    | ok ranges' =>
      rw [hmap] at h
      cases h
      obtain ⟨-, shards, -, hcover, rfl⟩ := RoutingSnapshot.fromMap_eq_ok.mp hmap
      exact ⟨shards, hcover, rfl⟩
  · cases h

theorem isCut_of_scanRoutes (h : e.scanRoutes range = .ok routes) : e.IsCut range routes := by
  simp only [scanRoutes, bind_eq_ok, pure_eq_ok, forM_eq_ok] at h
  obtain ⟨snapshot, hsnapshot, _, hroutes, _, hhosts, rfl⟩ := h
  have hgroup : ∀ key, e.scanGroup range key = ownerGroup snapshot key := by
    intro key
    rw [scanGroup, hsnapshot]
    rfl
  unfold cutRoutes at hroutes
  split at hroutes
  next hle =>
    cases hroutes
    refine ⟨.nil, fun key => ⟨?_, fun hin => ?_⟩, ?_, ?_, ?_⟩
    · rintro ⟨_, ⟨⟩, _⟩
    · exact absurd (hin.1.trans_lt hin.2) (not_lt.mpr hle)
    all_goals rintro _ ⟨⟩
  next hlt =>
  simp only [bind_eq_ok, pure_eq_ok] at hroutes
  obtain ⟨_, -, rfl⟩ := hroutes
  cases snapshot with
  | none =>
    refine ⟨pairwise_singleton _ _, fun key => ?_, ?_, ?_, ?_⟩
    · simp only [cutRange, mem_singleton, exists_eq_left]
    · intro p hp
      rw [mem_singleton.mp hp]
      exact (not_le.mp hlt).le
    · intro p hp
      refine ⟨.inl ?_, hhosts p hp⟩
      rw [mem_singleton.mp hp]
    · intro p hp key _
      rw [hgroup, mem_singleton.mp hp]
      rfl
  | some ranges =>
    have hcover : ∃ table, e.shardRouter.snapshot table = .ok (some ranges) := by
      unfold scanSnapshot at hsnapshot
      split at hsnapshot
      next table _ => exact ⟨table, hsnapshot⟩
      · cases hsnapshot
    obtain ⟨table, htable⟩ := hcover
    obtain ⟨shards, hcover, rfl⟩ := snapshot_cover htable
    obtain ⟨hordered, hunion, hparts⟩ := RoutingSnapshot.intersect_spec hcover range
    refine ⟨pairwise_map.mpr hordered, fun key => ?_, ?_, ?_, ?_⟩
    · rw [← hunion]
      simp only [cutRange, mem_map, exists_exists_and_eq_and]
    · intro p hp
      obtain ⟨c, hc, rfl⟩ := mem_map.mp hp
      exact (hparts c hc).1.le
    · intro p hp
      refine ⟨.inr ?_, hhosts p hp⟩
      obtain ⟨c, -, rfl⟩ := mem_map.mp hp
      exact ⟨c.1, rfl⟩
    · intro p hp key hkey
      obtain ⟨c, hc, rfl⟩ := mem_map.mp hp
      rw [hgroup, ownerGroup, (hparts c hc).2 key hkey]
      rfl

theorem readsOf_scanFrom (e : RaftKvEngine V) (group : Bytes) (range : KeyRange)
    (hle : range.start ≤ range.stop) (readTs : Nat) :
    ∃ rows, e.scanFrom group range readTs = .ok rows ∧
      ReadsOf (e.getFrom group · readTs) range rows := by
  unfold scanFrom getFrom
  split
  · exact readsOf_scan e.store range hle readTs
  · exact readsOf_namespaced_scan _ e.store range hle readTs

theorem mapM_scanFrom (e : RaftKvEngine V) (readTs : Nat)
    (hordered : routes.Pairwise fun p q => p.2.stop ≤ q.2.start)
    (hproper : ∀ p ∈ routes, p.2.start ≤ p.2.stop) :
    ∃ rows, (routes.mapM fun p => e.scanFrom p.1 p.2 readTs).map List.flatten = .ok rows ∧
      rows.Pairwise (fun a b => a.key < b.key) ∧
      (∀ row ∈ rows, ∃ p ∈ routes, p.2.Contains row.key ∧
        e.getFrom p.1 row.key readTs = some row.value) ∧
      ∀ p ∈ routes, ∀ key value, p.2.Contains key → e.getFrom p.1 key readTs = some value →
        ∃ row ∈ rows, row.key = key ∧ row.value = value := by
  induction routes with
  | nil => exact ⟨[], rfl, .nil, nofun, nofun⟩
  | cons p routes ih =>
    obtain ⟨hfirst, hordered⟩ := pairwise_cons.mp hordered
    obtain ⟨hle, hproper⟩ := forall_mem_cons.mp hproper
    obtain ⟨head, hhead, hreads⟩ := readsOf_scanFrom e p.1 p.2 hle readTs
    obtain ⟨rest, hrest, hsorted, hsound, hcomplete⟩ := ih hordered hproper
    refine ⟨head ++ rest, ?_, ?_, ?_, ?_⟩
    · rw [mapM_cons, hhead]
      cases hm : routes.mapM fun p => e.scanFrom p.1 p.2 readTs with
      | error fault =>
        rw [hm] at hrest
        cases hrest
      | ok parts =>
        rw [hm] at hrest
        cases hrest
        rfl
    · refine pairwise_append.mpr ⟨hreads.sorted, hsorted, fun a ha b hb => ?_⟩
      obtain ⟨q, hq, hin, -⟩ := hsound b hb
      exact ((hreads.sound a ha).1.2.trans_le (hfirst q hq)).trans_le hin.1
    · intro row hrow
      rcases mem_append.mp hrow with hrow | hrow
      · exact ⟨p, mem_cons_self, hreads.sound row hrow⟩
      obtain ⟨q, hq, hrow⟩ := hsound row hrow
      exact ⟨q, mem_cons_of_mem _ hq, hrow⟩
    · intro q hq key value hin hget
      rcases mem_cons.mp hq with rfl | hq
      · obtain ⟨row, hrow, heq⟩ := hreads.complete key value hin hget
        exact ⟨row, mem_append_left _ hrow, heq⟩
      · obtain ⟨row, hrow, heq⟩ := hcomplete q hq key value hin hget
        exact ⟨row, mem_append_right _ hrow, heq⟩

theorem get_eq_ok {value : Option V} : e.get key readTs = .ok value ↔
    ∃ group, e.groupOf key = .ok group ∧ e.requireHost group = .ok () ∧
      e.getFrom group key readTs = value := by
  simp only [get, route, bind_eq_ok, pure_eq_ok]
  constructor
  · rintro ⟨_, ⟨group, hgroup, _, hhost, rfl⟩, hget⟩
    exact ⟨group, hgroup, hhost, hget⟩
  · rintro ⟨group, hgroup, hhost, hget⟩
    exact ⟨group, ⟨group, hgroup, (), hhost, rfl⟩, hget⟩

/-! ## Row keys -/

theorem length_toText (u : Uuid) : u.toText.length = 36 := by
  simp [Uuid.toText]

theorem parseStr_toText (u : Uuid) : Uuid.parseStr u.toText = some u := by
  have hdigit : ∀ d < 16, ¬ (65 ≤ Uuid.hexDigit d ∧ Uuid.hexDigit d ≤ 70) := by decide
  have hlower : ∀ c ∈ u.toText, (if 65 ≤ c ∧ c ≤ 70 then c + 32 else c) = id c := by
    intro c hc
    refine if_neg ?_
    by_cases hyphen : c = 45
    · rw [hyphen]
      decide
    have hmem : c ∈ digits Uuid.hexDigit 16 32 u.toNat := by
      rw [← Uuid.filter_toText]
      exact mem_filter.mpr ⟨hc, bne_iff_ne.mpr hyphen⟩
    obtain ⟨d, hd, rfl⟩ := mem_digits (by decide) hmem
    exact hdigit d hd
  rw [Uuid.parseStr, map_congr_left hlower, map_id, Uuid.parse_toText]

theorem parseTableId_row (table : TableId) (rest : Bytes) :
    parseTableId (table.toText ++ 58 :: rest) = some table := by
  have hcolon : (table.toText ++ 58 :: rest)[36]? = some 58 := by
    rw [getElem?_append_right (length_toText table).le, length_toText]
    rfl
  rw [parseTableId, if_pos hcolon, take_left' (length_toText table), parseStr_toText]

theorem parseTableId_of_between {rest : Bytes}
    (hlo : table.toText ++ 58 :: rest ≤ key) (hhi : key < table.toText ++ ascii ";") :
    parseTableId key = some table := by
  obtain ⟨tail, rfl⟩ := isPrefix_of_between hlo hhi
  replace hlo : 58 :: rest ≤ tail :=
    (show physicalKey ⟨table.toText⟩ _ ≤ physicalKey _ _ ↔ _
      from physicalKey_le).mp hlo
  replace hhi : tail < [59] :=
    (show physicalKey ⟨table.toText⟩ _ < physicalKey _ _ ↔ _
      from physicalKey_lt).mp hhi
  cases tail with
  | nil => exact absurd hlo (not_le.mpr (nil_lt_cons _ _))
  | cons c tail =>
    rw [← not_lt, cons_lt_cons_iff, not_or] at hlo
    rw [cons_lt_cons_iff] at hhi
    have hc : c = 58 := by
      have hlt : c < 59 := hhi.elim id fun h => absurd h.2 (not_lt_nil _)
      have hge := hlo.1
      grind
    rw [hc]
    exact parseTableId_row table tail

theorem scanGroup_eq_groupOf {rest : Bytes} (hroutes : e.scanRoutes range = .ok routes)
    (hstart : range.start = table.toText ++ 58 :: rest) (hkey : range.Contains key) :
    e.scanGroup range key = e.groupOf key := by
  have hparse : parseTableId range.start = some table := by
    rw [hstart]
    exact parseTableId_row table rest
  simp only [scanRoutes, bind_eq_ok] at hroutes
  obtain ⟨snapshot, -, _, hcut, -⟩ := hroutes
  rw [cutRoutes, if_neg (not_le.mpr (hkey.1.trans_lt hkey.2))] at hcut
  simp only [bind_eq_ok, checkSpan, hparse, ensure_eq_ok] at hcut
  obtain ⟨_, hspan, -⟩ := hcut
  have hrow : parseTableId key = some table :=
    parseTableId_of_between (hstart ▸ hkey.1) (hkey.2.trans_le hspan)
  rw [scanGroup, scanSnapshot, hparse, groupOf, hrow]

/-! ## Scans and point reads -/

/-- A routed scan yields rows in ascending order that routed point reads return. It
yields all of them exactly when every key of the range with a value is read from the
group it is routed to, as it is when the range starts at a row key of a table. -/
theorem scan_matches_gets (hplaced : e.Placed) (hroutes : e.scanRoutes range = .ok routes)
    (readTs : Nat) :
    ∃ rows, e.scan range readTs = .ok (.ok rows) ∧ rows.Pairwise (fun a b => a.key < b.key) ∧
      (∀ row ∈ rows, range.Contains row.key ∧ e.get row.key readTs = .ok (some row.value)) ∧
      ((∀ key value, range.Contains key → e.get key readTs = .ok (some value) →
          ∃ row ∈ rows, row.key = key ∧ row.value = value) ↔
        ∀ key value, range.Contains key → e.get key readTs = .ok (some value) →
          e.scanGroup range key = e.groupOf key) ∧
      ∀ (table : TableId) rest, range.start = table.toText ++ 58 :: rest →
        ∀ key, range.Contains key → e.scanGroup range key = e.groupOf key := by
  have hcut := isCut_of_scanRoutes hroutes
  obtain ⟨rows, hrows, hsorted, hsound, hcomplete⟩ :=
    mapM_scanFrom e readTs hcut.ordered hcut.proper
  have hget : ∀ row ∈ rows, range.Contains row.key ∧
      e.get row.key readTs = .ok (some row.value) ∧
      e.scanGroup range row.key = e.groupOf row.key := by
    intro row hrow
    obtain ⟨p, hp, hin, hvalue⟩ := hsound row hrow
    obtain ⟨hisgroup, hhost⟩ := hcut.group p hp
    have hgroup := hplaced p.1 hisgroup row.key readTs row.value hvalue
    exact ⟨(hcut.union row.key).mp ⟨p, hp, hin⟩, get_eq_ok.mpr ⟨p.1, hgroup, hhost, hvalue⟩,
      (hcut.owner p hp row.key hin).trans hgroup.symm⟩
  refine ⟨rows, ?_, hsorted, fun row hrow => ⟨(hget row hrow).1, (hget row hrow).2.1⟩, ⟨?_, ?_⟩,
    fun table rest hstart key hkey => scanGroup_eq_groupOf hroutes hstart hkey⟩
  · rw [scan, hroutes]
    exact congrArg Except.ok hrows
  · intro hall key value hin hvalue
    obtain ⟨row, hrow, rfl, -⟩ := hall key value hin hvalue
    exact (hget row hrow).2.2
  intro hsame key value hin hvalue
  obtain ⟨group, hgroup, -, hfrom⟩ := get_eq_ok.mp hvalue
  obtain ⟨p, hp, hpart⟩ := (hcut.union key).mpr hin
  have howner := hcut.owner p hp key hpart
  rw [hsame key value hin hvalue, hgroup] at howner
  cases howner
  exact hcomplete p hp key value hpart hfrom

end Scan

/-! ## A row that a scan misses -/

def tableRow : Bytes := (9 : Uuid).toText ++ ascii ":k"

/-- The table 9 has one shard, and its row is in the group of the shard. -/
def oneShard : RaftKvEngine Nat where
  store := ((Table.empty : Table Nat).replayIntent 7
    ((NamespacedKvEngine.new (dataGroupId 1)).physicalKey tableRow) (some 5) 0).commit 7 3
  shardRouter := MemMetaStore.new.updateShardMap ⟨9, [⟨1, [], 1, [], [], .pub, 9, [], []⟩]⟩
  hosted := [dataGroupId 1]

theorem placed_oneShard : oneShard.Placed := by
  have hkeys : oneShard.store.store.keys =
      [(new (dataGroupId 1)).physicalKey tableRow] := by decide +kernel
  have hstored : ∀ key readTs value, oneShard.store.get key readTs = some value →
      key = (new (dataGroupId 1)).physicalKey tableRow := by
    intro key readTs value hget
    have hmem : key ∈ oneShard.store.store.keys := by
      rw [OrdMap.mem_keys]
      intro hnone
      rw [MemKvEngine.get, hnone] at hget
      cases hget
    rw [hkeys] at hmem
    exact mem_singleton.mp hmem
  have hmeta : oneShard.groupOf ((new (dataGroupId 1)).physicalKey tableRow) =
      .ok shardMeta := by decide +kernel
  have hrow : oneShard.groupOf tableRow = .ok (dataGroupId 1) := by decide +kernel
  rintro group (rfl | ⟨shard, rfl⟩) key readTs value hget
  · rw [getFrom, if_pos rfl] at hget
    rw [hstored key readTs value hget, hmeta]
  · have hne : dataGroupId shard ≠ shardMeta := by
      intro heq
      have hlength := congrArg length heq
      simp [dataGroupId, length_toText, shardMeta, ascii] at hlength
    rw [getFrom, if_neg hne] at hget
    have hkey := hstored _ readTs value hget
    have hlength : (new (dataGroupId shard)).nsPrefix.length =
        (new (dataGroupId 1)).nsPrefix.length := by
      simp [new, dataGroupId, length_toText]
    obtain ⟨hgroup, rfl⟩ := append_inj hkey hlength
    rw [hrow, append_cancel_right hgroup]

/-- A scan of the row keys of the table finds its row. -/
theorem table_scan_finds_row :
    ∃ rows, oneShard.scan ⟨(9 : Uuid).toText ++ 58 :: [], (9 : Uuid).toText ++ ascii ";"⟩ 4 =
        .ok (.ok rows) ∧ ∃ row ∈ rows, row.key = tableRow ∧ row.value = 5 := by
  have hroutes : (oneShard.scanRoutes
      ⟨(9 : Uuid).toText ++ 58 :: [], (9 : Uuid).toText ++ ascii ";"⟩).toOption.isSome = true := by
    decide +kernel
  cases hr : oneShard.scanRoutes
      ⟨(9 : Uuid).toText ++ 58 :: [], (9 : Uuid).toText ++ ascii ";"⟩ with
  | error error =>
    rw [hr] at hroutes
    cases hroutes
  | ok routes =>
    obtain ⟨rows, hscan, -, -, hall, hrows⟩ := scan_matches_gets placed_oneShard hr 4
    have hcomplete := hall.mpr fun key value hin _ => hrows 9 [] rfl key hin
    exact ⟨rows, hscan, hcomplete tableRow 5 (by decide +kernel) (by decide +kernel)⟩

/-- A scan that starts before the keys of the table is accepted and does not. -/
theorem scan_misses_row :
    oneShard.Placed ∧ (∃ routes, oneShard.scanRoutes ⟨ascii "0", ascii "1"⟩ = .ok routes) ∧
      (⟨ascii "0", ascii "1"⟩ : KeyRange).Contains tableRow ∧
      oneShard.get tableRow 4 = .ok (some 5) ∧
      oneShard.scan ⟨ascii "0", ascii "1"⟩ 4 = .ok (.ok []) := by
  refine ⟨placed_oneShard, ⟨[(shardMeta, ⟨ascii "0", ascii "1"⟩)], ?_⟩, ?_, ?_, ?_⟩
  all_goals decide +kernel

end RaftKvEngine

end NodusDb
