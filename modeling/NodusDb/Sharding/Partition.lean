import NodusDb.Lib.Tiling
import NodusDb.Raft.Routing

/-!
# Shards of a table

A shard map that is accepted cuts the key space of its table into shards (`fromMap_eq_ok`). Splits
and merges replace shards of the map, and then the map in the metadata store.

* `routing_partition`: routing is a partition of the keys, and stays one.
-/

namespace NodusDb

open List hiding range

open Result ShardDescriptor Tiling

namespace RoutingSnapshot

def locateKey (ranges : List Range) (key : Bytes) : Result ShardId :=
  required ((ranges.find? fun r => decide ((r.start = [] ∨ r.start ≤ key) ∧
    (r.stop = [] ∨ key < r.stop))).map (·.id)) "invalid shard map: key has no owner"

def intersect (ranges : List Range) (range : KeyRange) : List (ShardId × KeyRange) :=
  if range.stop ≤ range.start then []
  else ranges.filterMap fun r =>
    let start := max range.start r.start
    let stop := if r.stop = [] then range.stop else min range.stop r.stop
    if start < stop then some (r.id, ⟨start, stop⟩) else none

end RoutingSnapshot

/-! ## Accepted maps -/

def openEnd (b : Bytes) : Option Bytes := if b = [] then none else some b

theorem openEnd_eq_none : openEnd b = none ↔ b = [] := by
  unfold openEnd
  split <;> simp_all

theorem openEnd_eq_some : openEnd b = some c ↔ b ≠ [] ∧ b = c := by
  unfold openEnd
  split <;> simp_all

theorem nil_le (key : Bytes) : [] ≤ key := not_lt.mp (not_lt_nil key)

namespace ShardDescriptor

def upper (s : ShardDescriptor) : Option Bytes := openEnd s.endKey

def Owns (s : ShardDescriptor) (key : Bytes) : Prop := Holds startKey upper s key

def range (s : ShardDescriptor) : Range := ⟨s.id, s.version, s.startKey, s.endKey⟩

end ShardDescriptor

/-- Public shards of a table with different ids that tile the key space. -/
structure ShardCover (table : TableId) (shards : List ShardDescriptor) : Prop where
  pub : ∀ s ∈ shards, s.tableId = table ∧ s.state = .pub
  ids : (shards.map (·.id)).Nodup
  tiles : Tiles ShardDescriptor.startKey ShardDescriptor.upper [] shards

theorem ShardCover.eq_of_startKey (h : ShardCover table shards) (ha : a ∈ shards)
    (hb : b ∈ shards) (heq : a.startKey = b.startKey) : a = b := by
  have hnodup : (shards.map (·.startKey)).Nodup := pairwise_map.mpr (h.tiles.sorted.imp ne_of_lt)
  exact inj_on_of_nodup_map hnodup ha hb heq

namespace RoutingSnapshot

variable {table : TableId} {ranges acc : List Range} {shards : List ShardDescriptor}

def EndsAt (acc : List Range) (key : Bytes) : Prop :=
  match acc.getLast? with
  | some previous => previous.stop ≠ [] ∧ previous.stop = key
  | none => key = []

theorem pushShard_eq_ok :
    pushShard table acc shard = .ok ranges ↔
      (shard.tableId = table ∧ shard.state = .pub) ∧ shard.id ∉ acc.map (·.id) ∧
        (shard.endKey = [] ∨ shard.startKey < shard.endKey) ∧ EndsAt acc shard.startKey ∧
        ranges = acc ++ [shard.range] := by
  cases hl : acc.getLast?
  all_goals
    simp only [EndsAt, pushShard, hl, bind_eq_ok, ensure_eq_ok, pure_eq_ok]
    constructor
    · rintro ⟨_, hpub, _, hid, _, hends, _, hlast, heq⟩
      exact ⟨hpub, hid, hends, hlast, heq.symm⟩
    · rintro ⟨hpub, hid, hends, hlast, heq⟩
      exact ⟨(), hpub, (), hid, (), hends, (), hlast, heq.symm⟩

theorem endsAt_push {shard : ShardDescriptor} {key : Bytes} :
    EndsAt (acc ++ [shard.range]) key ↔ shard.upper = some key := by
  simp only [EndsAt, getLast?_append_of_ne_nil, ne_eq, cons_ne_nil, not_false_eq_true,
    getLast?_singleton]
  exact openEnd_eq_some.symm

theorem foldlM_pushShard (h : shards.foldlM (pushShard table) acc = .ok ranges) :
    ranges = acc ++ shards.map ShardDescriptor.range ∧
      (∀ s ∈ shards, s.tableId = table ∧ s.state = .pub) ∧
      ((acc.map (·.id)).Nodup → (ranges.map (·.id)).Nodup) ∧
      (shards ≠ [] → ranges.getLast?.any (·.stop = []) = true →
        ∃ key, EndsAt acc key ∧
          Tiles ShardDescriptor.startKey ShardDescriptor.upper key shards) := by
  induction shards generalizing acc with
  | nil =>
    cases h
    exact ⟨(append_nil _).symm, nofun, id, fun hne => absurd rfl hne⟩
  | cons shard shards ih =>
    rw [foldlM_cons, bind_eq_ok] at h
    obtain ⟨acc', hpush, h⟩ := h
    obtain ⟨hpub, hid, hends, hlast, rfl⟩ := pushShard_eq_ok.mp hpush
    obtain ⟨hranges, hrest, hnodup, htiles⟩ := ih h
    refine ⟨by rw [hranges, append_assoc]; rfl, ?_, fun hacc => hnodup ?_, fun _ hend => ?_⟩
    · exact forall_mem_cons.mpr ⟨hpub, hrest⟩
    · rw [map_append, nodup_append]
      refine ⟨hacc, nodup_singleton _, fun a ha b hb => ?_⟩
      rw [mem_singleton.mp hb]
      rintro rfl
      exact hid ha
    refine ⟨shard.startKey, hlast, ?_⟩
    by_cases hne : shards = []
    · subst hne
      refine .last (openEnd_eq_none.mpr ?_)
      rw [hranges] at hend
      simpa [range] using hend
    · obtain ⟨key, hkey, ht⟩ := htiles hne hend
      have hupper := endsAt_push.mp hkey
      obtain ⟨hopen, rfl⟩ := openEnd_eq_some.mp hupper
      exact .cons hupper (hends.resolve_left hopen) ht

theorem foldlM_pushShard_of_tiles (hpub : ∀ s ∈ shards, s.tableId = table ∧ s.state = .pub)
    (hids : ((acc ++ shards.map ShardDescriptor.range).map (·.id)).Nodup)
    (ht : Tiles ShardDescriptor.startKey ShardDescriptor.upper key shards) (hkey : EndsAt acc key) :
    shards.foldlM (pushShard table) acc = .ok (acc ++ shards.map ShardDescriptor.range) ∧
      (acc ++ shards.map ShardDescriptor.range).getLast?.any (·.stop = []) = true := by
  induction shards generalizing acc key with
  | nil => cases ht
  | cons shard shards ih =>
    obtain ⟨hshard, hrest⟩ := forall_mem_cons.mp hpub
    have hid : shard.id ∉ acc.map (·.id) := by
      rw [map_append, nodup_append] at hids
      exact fun hmem => hids.2.2 _ hmem _ mem_cons_self rfl
    have hcons : acc ++ (shard :: shards).map range =
        acc ++ [shard.range] ++ shards.map range := by
      rw [append_assoc]
      rfl
    rw [foldlM_cons]
    rw [hcons] at hids ⊢
    cases ht with
    | last hopen =>
      have hend := openEnd_eq_none.mp hopen
      rw [pushShard_eq_ok.mpr ⟨hshard, hid, .inl hend, hkey, rfl⟩]
      exact ⟨by rw [map_nil, append_nil]; rfl, by simp [range, hend]⟩
    | cons hhi hlt ht =>
      obtain ⟨-, rfl⟩ := openEnd_eq_some.mp hhi
      rw [pushShard_eq_ok.mpr ⟨hshard, hid, .inr hlt, hkey, rfl⟩]
      exact ih hrest hids ht (endsAt_push.mpr hhi)

theorem fromMap_eq_ok {map : ShardMap} :
    fromMap table map = .ok ranges ↔
      map.tableId = table ∧ ∃ shards, shards.Perm map.shards ∧ ShardCover table shards ∧
        ranges = shards.map ShardDescriptor.range := by
  simp only [fromMap, bind_eq_ok, ensure_eq_ok, pure_eq_ok]
  constructor
  · rintro ⟨_, htable, _, hne, _, hfold, _, hend, rfl⟩
    have hperm := perm_insertionSort (fun a b => a.startKey ≤ b.startKey) map.shards
    obtain ⟨hranges, hpub, hnodup, htiles⟩ := foldlM_pushShard hfold
    have hsorted : map.shards.insertionSort (fun a b => a.startKey ≤ b.startKey) ≠ [] := by
      rw [← length_pos_iff, hperm.length_eq, length_pos_iff]
      exact hne
    obtain ⟨key, hkey, ht⟩ := htiles hsorted hend
    cases hkey
    refine ⟨htable, _, hperm, ⟨hpub, ?_, ht⟩, hranges⟩
    have hids := hnodup nodup_nil
    rwa [hranges, nil_append, map_map] at hids
  · rintro ⟨htable, shards, hperm, hcover, rfl⟩
    -- A tiling has one order by start keys, so it is what sorting gives.
    have hsort : map.shards.insertionSort (fun a b => a.startKey ≤ b.startKey) = shards := by
      refine List.Perm.eq_of_pairwise (fun a b ha hb hab hba => ?_)
        (pairwise_insertionSort _ _) (hcover.tiles.sorted.imp le_of_lt)
        ((perm_insertionSort _ _).trans hperm.symm)
      have ha' := (hperm.mem_iff.mpr (mem_insertionSort _ |>.mp ha))
      exact hcover.eq_of_startKey ha' hb (le_antisymm hab hba)
    have hids : (([] ++ shards.map range).map Range.id).Nodup := by
      rw [nil_append, map_map]
      exact hcover.ids
    obtain ⟨hfold, hend⟩ := foldlM_pushShard_of_tiles hcover.pub hids hcover.tiles rfl
    refine ⟨(), htable, (), ?_, _, by rw [hsort]; exact hfold, (), hend, rfl⟩
    rintro hnil
    rw [hnil, perm_nil] at hperm
    rw [hperm] at hcover
    obtain ⟨_, _, hcons, -⟩ := hcover.tiles.first
    cases hcons

/-! ## The owners of keys -/

variable {key : Bytes} {shard : ShardDescriptor}

theorem owns_iff : (shard.range.start = [] ∨ shard.range.start ≤ key) ∧
    (shard.range.stop = [] ∨ key < shard.range.stop) ↔ shard.Owns key := by
  refine and_congr ⟨fun h => h.elim (fun hnil => ?_) id, .inr⟩ ?_
  · rw [show shard.startKey = [] from hnil]
    exact nil_le key
  constructor
  · rintro h b hb
    obtain ⟨hne, rfl⟩ := openEnd_eq_some.mp hb
    exact h.resolve_left hne
  · intro h
    by_cases hnil : shard.endKey = []
    · exact .inl hnil
    · exact .inr (h _ (openEnd_eq_some.mpr ⟨hnil, rfl⟩))

theorem locateKey_of_owns (h : ShardCover table shards) (hs : shard ∈ shards)
    (howns : shard.Owns key) : locateKey (shards.map ShardDescriptor.range) key = .ok shard.id := by
  rw [locateKey, required_eq_ok, find?_map, Option.map_map, Option.map_eq_some_iff]
  refine ⟨shard, ?_, rfl⟩
  obtain ⟨found, hfound⟩ : ∃ found, shards.find? ((fun r : Range => decide
      ((r.start = [] ∨ r.start ≤ key) ∧ (r.stop = [] ∨ key < r.stop))) ∘
        range) = some found := by
    rw [← Option.isSome_iff_exists, find?_isSome]
    exact ⟨shard, hs, decide_eq_true (owns_iff.mpr howns)⟩
  have htrue := find?_some hfound
  have hholds : found.Owns key := owns_iff.mp (of_decide_eq_true htrue)
  rw [hfound, h.tiles.holds_unique (mem_of_find?_eq_some hfound) hs hholds howns]

theorem exists_owner (h : ShardCover table shards) (key : Bytes) :
    ∃ shard ∈ shards, shard.Owns key ∧
      locateKey (shards.map ShardDescriptor.range) key = .ok shard.id := by
  obtain ⟨shard, hs, howns⟩ := h.tiles.covers (nil_le key)
  exact ⟨shard, hs, howns, locateKey_of_owns h hs howns⟩

theorem intersect_eq (range : KeyRange) :
    intersect (shards.map ShardDescriptor.range) range =
      (shards.filterMap (clip ShardDescriptor.startKey ShardDescriptor.upper range.start
        range.stop)).map fun p => (p.1.id, ⟨p.2.1, p.2.2⟩) := by
  rw [map_filterMap]
  unfold intersect
  split
  next hle =>
    symm
    refine filterMap_eq_nil_iff.mpr fun s _ => ?_
    rw [clip, if_neg, Option.map_none]
    exact fun hlt => absurd ((le_max_left _ _).trans_lt (lt_cutAt.mp hlt).1) (not_lt.mpr hle)
  rw [filterMap_map]
  refine filterMap_congr fun s _ => ?_
  rw [Function.comp, clip, ShardDescriptor.upper, openEnd]
  by_cases hnil : s.endKey = []
  all_goals
    simp only [ShardDescriptor.range, hnil, ↓reduceIte, cutAt]
    split <;> rfl

theorem intersect_spec (h : ShardCover table shards) (range : KeyRange) :
    (intersect (shards.map ShardDescriptor.range) range).Pairwise
        (fun p q => p.2.stop ≤ q.2.start) ∧
      (∀ key, (∃ p ∈ intersect (shards.map ShardDescriptor.range) range, p.2.Contains key) ↔
        range.Contains key) ∧
      ∀ p ∈ intersect (shards.map ShardDescriptor.range) range, p.2.start < p.2.stop ∧
        ∀ key, p.2.Contains key →
          locateKey (shards.map ShardDescriptor.range) key = .ok p.1 := by
  rw [intersect_eq]
  refine ⟨pairwise_map.mpr h.tiles.clip_ordered, fun key => ?_, fun p hp => ?_⟩
  · rw [KeyRange.Contains, ← h.tiles.clip_union nil_le]
    constructor
    · rintro ⟨p, hp, hkey⟩
      obtain ⟨c, hc, rfl⟩ := mem_map.mp hp
      exact ⟨c, hc, hkey⟩
    · rintro ⟨c, hc, hkey⟩
      exact ⟨_, mem_map_of_mem hc, hkey⟩
  · obtain ⟨c, hc, rfl⟩ := mem_map.mp hp
    obtain ⟨shard, hs, hlt, rfl⟩ := mem_filterMap_clip.mp hc
    exact ⟨hlt, fun key hkey => locateKey_of_owns h hs (mem_clip.mp hkey).2⟩

end RoutingSnapshot

/-! ## Splits and merges -/

/-- What the id generator and the clock give to a new shard. -/
structure FreshShard where
  id : ShardId
  now : Bytes

def newShard (fresh : FreshShard) (table : TableId) (name startKey endKey : Bytes) :
    ShardDescriptor where
  id := fresh.id
  name := name
  version := 1
  createdAt := fresh.now
  updatedAt := fresh.now
  state := .pub
  tableId := table
  startKey := startKey
  endKey := endKey

structure SplitPlan where
  sourceId : ShardId
  splitKey : Bytes
  sourceNode : Option Bytes
  left : ShardDescriptor
  right : ShardDescriptor
  newMap : ShardMap

structure MergePlan where
  leftId : ShardId
  rightId : ShardId
  sourceNode : Option Bytes
  merged : ShardDescriptor
  newMap : ShardMap

/-- The metadata store, and the placements as the orchestrator last knew them. -/
structure ShardOrchestrator where
  store : MemMetaStore
  placements : Placements

namespace ShardOrchestrator

def savePlacements (o : ShardOrchestrator) : ShardOrchestrator :=
  { o with store := o.store.updateShardPlacements o.placements }

def planSplit (o : ShardOrchestrator) (left right : FreshShard) (table : TableId)
    (shardId : ShardId) (splitKey : Bytes) : Result SplitPlan := do
  let map ← required (o.store.getShardMap table) "Shard map not found for table"
  let shard ← required (map.shards.find? (·.id = shardId)) "shard not found"
  let afterStart := shard.startKey = [] ∨ shard.startKey < splitKey
  let beforeEnd := shard.endKey = [] ∨ splitKey < shard.endKey
  ensure (¬ (splitKey = [] ∨ ¬ afterStart ∨ ¬ beforeEnd)) "split key is not strictly within shard"
  let left := newShard left table (shard.name ++ ascii "-l") shard.startKey splitKey
  let right := newShard right table (shard.name ++ ascii "-r") splitKey shard.endKey
  pure {
    sourceId := shardId
    splitKey := splitKey
    sourceNode := o.placements.get? shardId
    left := left
    right := right
    newMap := { map with shards := map.shards.eraseP (·.id = shardId) ++ [left, right] } }

def commitSplit (o : ShardOrchestrator) (plan : SplitPlan) : ShardOrchestrator :=
  let o := { o with store := o.store.updateShardMap plan.newMap }
  let placements := match plan.sourceNode with
    | some node =>
      ((o.placements.insert plan.left.id node).insert plan.right.id node).erase plan.sourceId
    | none => o.placements
  savePlacements { o with placements := placements }

def planMerge (o : ShardOrchestrator) (fresh : FreshShard) (table : TableId)
    (leftId rightId : ShardId) : Result MergePlan := do
  let map ← required (o.store.getShardMap table) "Shard map not found for table"
  let left ← required (map.shards.find? (·.id = leftId)) "shard not found"
  let right ← required (map.shards.find? (·.id = rightId)) "shard not found"
  ensure (¬ (left.endKey = [] ∨ left.endKey ≠ right.startKey)) "shards are not adjacent"
  let merged := newShard fresh table (left.name ++ ascii "+" ++ right.name) left.startKey
    right.endKey
  pure {
    leftId := leftId
    rightId := rightId
    sourceNode := o.placements.get? leftId
    merged := merged
    newMap := { map with
      shards := map.shards.filter (fun s => s.id ≠ leftId ∧ s.id ≠ rightId) ++ [merged] } }

def commitMerge (o : ShardOrchestrator) (plan : MergePlan) : ShardOrchestrator :=
  let o := { o with store := o.store.updateShardMap plan.newMap }
  let placements := match plan.sourceNode with
    | some node => o.placements.insert plan.merged.id node
    | none => o.placements
  savePlacements { o with placements := (placements.erase plan.leftId).erase plan.rightId }

section Maps

open RoutingSnapshot

variable {o : ShardOrchestrator} {table : TableId} {map : ShardMap}

theorem perm_eraseP {shards : List ShardDescriptor} {shardId : ShardId} {shard : ShardDescriptor}
    (h : shards.find? (·.id = shardId) = some shard) :
    (shard :: shards.eraseP (·.id = shardId)).Perm shards := by
  induction shards with
  | nil => cases h
  | cons s shards ih =>
    rw [find?_cons] at h
    rw [eraseP_cons]
    split at h
    next hid =>
      cases h
      rw [hid]
      exact .refl _
    next hid =>
      rw [hid]
      exact (List.Perm.swap _ _ _).trans ((ih h).cons s)

theorem accepted_of_replace {pre post rest : List ShardDescriptor}
    (old new : List ShardDescriptor) (h : ShardCover table (pre ++ (old ++ post)))
    (hrest : rest.Perm (pre ++ post))
    (hpub : ∀ s ∈ new, s.tableId = table ∧ s.state = .pub) (hids : (new.map (·.id)).Nodup)
    (hfresh : ∀ s ∈ new, s.id ∉ (pre ++ (old ++ post)).map (·.id))
    (htiles : Tiles ShardDescriptor.startKey ShardDescriptor.upper [] (pre ++ (new ++ post))) :
    ∃ ranges, fromMap table ⟨table, rest ++ new⟩ = .ok ranges ∧
      ∀ key, (∀ s ∈ old, locateKey ((pre ++ (old ++ post)).map ShardDescriptor.range) key ≠
        .ok s.id) →
        locateKey ranges key =
          locateKey ((pre ++ (old ++ post)).map ShardDescriptor.range) key := by
  have hperm : (pre ++ (new ++ post)).Perm (new ++ (pre ++ post)) := by
    rw [← append_assoc, ← append_assoc]
    exact perm_append_comm.append_right post
  have hsub : (pre ++ post).Sublist (pre ++ (old ++ post)) :=
    (List.Sublist.refl pre).append (sublist_append_right _ _)
  have hcover : ShardCover table (pre ++ (new ++ post)) := by
    refine ⟨fun s hs => ?_, (hperm.map _).nodup_iff.mpr ?_, htiles⟩
    · rcases mem_append.mp (hperm.mem_iff.mp hs) with hs | hs
      · exact hpub s hs
      · exact h.pub s (hsub.subset hs)
    rw [map_append, nodup_append]
    refine ⟨hids, h.ids.sublist (hsub.map _), ?_⟩
    rintro a ha _ hb rfl
    obtain ⟨s, hs, rfl⟩ := mem_map.mp ha
    exact hfresh s hs ((hsub.map _).subset hb)
  have hmap : (pre ++ (new ++ post)).Perm (rest ++ new) :=
    hperm.trans (perm_append_comm.trans (hrest.symm.append_right new))
  refine ⟨_, fromMap_eq_ok.mpr ⟨rfl, _, hmap, hcover, rfl⟩, fun key hold => ?_⟩
  obtain ⟨owner, hmem, howns, hlocate⟩ := exists_owner h key
  rw [hlocate] at hold ⊢
  refine locateKey_of_owns hcover ?_ howns
  rcases mem_append.mp hmem with hpre | hmem
  · exact mem_append_left _ hpre
  rcases mem_append.mp hmem with hmem | hpost
  · exact absurd rfl (hold owner hmem)
  · exact mem_append_right _ (mem_append_right _ hpost)

variable {ranges : List Range}

theorem getShardMap_committed {store : MemMetaStore} {placements : Placements}
    (htable : map.tableId = table) :
    ((store.updateShardMap map).updateShardPlacements placements).getShardMap table = some map := by
  rw [← htable]
  exact (OrdMap.get?_insert ..).trans (if_pos rfl)

theorem split_accepted {plan : SplitPlan} (hmap : fromMap table map = .ok ranges)
    (hstore : o.store.getShardMap table = some map)
    (hfresh : ∀ fresh ∈ [left, right], fresh.id ∉ map.shards.map (·.id))
    (hne : left.id ≠ right.id) (hplan : o.planSplit left right table shardId splitKey = .ok plan) :
    (o.commitSplit plan).store.getShardMap table = some plan.newMap ∧
      ∃ ranges', fromMap table plan.newMap = .ok ranges' ∧
        ∀ key, locateKey ranges key ≠ .ok shardId →
          locateKey ranges' key = locateKey ranges key := by
  obtain ⟨rfl, shards, hperm, hcover, rfl⟩ := fromMap_eq_ok.mp hmap
  simp only [planSplit, hstore, bind_eq_ok, ensure_eq_ok, required_eq_ok, pure_eq_ok] at hplan
  obtain ⟨_, hm, shard, hfind, _, hinside, rfl⟩ := hplan
  cases hm
  push Not at hinside
  obtain ⟨hsplit, hafter, hbefore⟩ := hinside
  have hid : shard.id = shardId := by simpa using find?_some hfind
  obtain ⟨pre, post, rfl⟩ := append_of_mem (hperm.mem_iff.mpr (mem_of_find?_eq_some hfind))
  have hlt : shard.startKey < splitKey := by
    rcases hafter with hnil | hlt
    · rw [hnil]
      exact lt_of_le_of_ne (nil_le _) (Ne.symm hsplit)
    · exact hlt
  set l := newShard left map.tableId (shard.name ++ ascii "-l") shard.startKey splitKey
  set r := newShard right map.tableId (shard.name ++ ascii "-r") splitKey shard.endKey
  have htiles : Tiles startKey upper []
      (pre ++ ([l, r] ++ post)) := by
    refine hcover.tiles.split rfl (openEnd_eq_some.mpr ⟨hsplit, rfl⟩) rfl rfl hlt fun b hb => ?_
    obtain ⟨hclosed, rfl⟩ := openEnd_eq_some.mp hb
    exact hbefore.resolve_left hclosed
  have hrest : (map.shards.eraseP (·.id = shardId)).Perm (pre ++ post) :=
    ((perm_eraseP hfind).trans (hperm.symm.trans perm_middle)).cons_inv
  have hnew : ∀ s ∈ [l, r], s.id ∉ (pre ++ ([shard] ++ post)).map (·.id) := by
    intro s hs hmem
    replace hmem := (hperm.map _).mem_iff.mp hmem
    simp only [mem_cons, not_mem_nil, or_false] at hs hfresh
    rcases hs with rfl | rfl
    · exact hfresh left (.inl rfl) hmem
    · exact hfresh right (.inr rfl) hmem
  refine ⟨getShardMap_committed rfl, ?_⟩
  obtain ⟨ranges', hranges', howner⟩ := accepted_of_replace [shard] [l, r] hcover hrest
    (by simp [l, r, newShard]) (by simpa [l, r, newShard] using hne) hnew htiles
  refine ⟨ranges', hranges', fun key hkey => howner key fun s hs => ?_⟩
  rw [mem_singleton.mp hs, hid]
  exact hkey

theorem merge_accepted {fresh : FreshShard} {plan : MergePlan}
    (hmap : fromMap table map = .ok ranges) (hstore : o.store.getShardMap table = some map)
    (hfresh : fresh.id ∉ map.shards.map (·.id))
    (hplan : o.planMerge fresh table leftId rightId = .ok plan) :
    (o.commitMerge plan).store.getShardMap table = some plan.newMap ∧
      ∃ ranges', fromMap table plan.newMap = .ok ranges' ∧
        ∀ key, locateKey ranges key ≠ .ok leftId → locateKey ranges key ≠ .ok rightId →
          locateKey ranges' key = locateKey ranges key := by
  obtain ⟨rfl, shards, hperm, hcover, rfl⟩ := fromMap_eq_ok.mp hmap
  simp only [planMerge, hstore, bind_eq_ok, ensure_eq_ok, required_eq_ok, pure_eq_ok] at hplan
  obtain ⟨_, hm, left, hleft, right, hright, _, hadjacent, rfl⟩ := hplan
  cases hm
  push Not at hadjacent
  have hlid : left.id = leftId := by simpa using find?_some hleft
  have hrid : right.id = rightId := by simpa using find?_some hright
  obtain ⟨pre, post, rfl⟩ := hcover.tiles.adjacent
    (hperm.mem_iff.mpr (mem_of_find?_eq_some hleft))
    (hperm.mem_iff.mpr (mem_of_find?_eq_some hright))
    (openEnd_eq_some.mpr hadjacent)
  set merged := newShard fresh map.tableId (left.name ++ ascii "+" ++ right.name)
    left.startKey right.endKey
  have hrest : (map.shards.filter fun s => s.id ≠ leftId ∧ s.id ≠ rightId).Perm (pre ++ post) := by
    have hids := ((perm_middle.trans (perm_middle.cons left)).map
      ShardDescriptor.id).nodup_iff.mp hcover.ids
    rw [map_cons, map_cons, nodup_cons, nodup_cons, hlid, hrid] at hids
    have hkeep : ∀ {l : List ShardDescriptor}, l ⊆ pre ++ post →
        (l.filter fun s => s.id ≠ leftId ∧ s.id ≠ rightId) = l := by
      intro l hl
      refine filter_eq_self.mpr fun s hs => decide_eq_true ?_
      have hmem : s.id ∈ (pre ++ post).map (·.id) := mem_map_of_mem (hl hs)
      exact ⟨fun heq => hids.1 (mem_cons_of_mem _ (heq ▸ hmem)), fun heq => hids.2.1 (heq ▸ hmem)⟩
    refine (hperm.symm.filter _).trans ?_
    rw [filter_append, filter_cons_of_neg (by simp [hlid]),
      filter_cons_of_neg (by simp [hrid]), hkeep (subset_append_left _ _),
      hkeep (subset_append_right _ _)]
  refine ⟨getShardMap_committed rfl, ?_⟩
  have hnew : ∀ s ∈ [merged], s.id ∉ (pre ++ ([left, right] ++ post)).map (·.id) := by
    intro s hs hmem
    rw [mem_singleton.mp hs] at hmem
    exact hfresh ((hperm.map _).mem_iff.mp hmem)
  obtain ⟨ranges', hranges', howner⟩ := accepted_of_replace [left, right] [merged] hcover hrest
    (by simp [merged, newShard]) (nodup_singleton _) hnew (hcover.tiles.merge rfl rfl)
  refine ⟨ranges', hranges', fun key hkeyl hkeyr => howner key fun s hs => ?_⟩
  simp only [mem_cons, not_mem_nil, or_false] at hs
  rcases hs with rfl | rfl
  · rwa [hlid]
  · rwa [hrid]

/-- Routing is a partition and stays one. An accepted map gives every key one
shard; a scan is cut into the parts of its owners; and a split or a merge makes a
map that is accepted and leaves the other shards their keys. The ids of new shards
are not those of shards of the map. -/
theorem routing_partition (hmap : fromMap table map = .ok ranges) :
    (∀ key, ∃ shard ∈ map.shards, locateKey ranges key = .ok shard.id ∧ shard.Owns key ∧
      ∀ other ∈ map.shards, other.Owns key → other = shard) ∧
    (∀ range : KeyRange,
      (intersect ranges range).Pairwise (fun p q => p.2.stop ≤ q.2.start) ∧
      (∀ key, (∃ p ∈ intersect ranges range, p.2.Contains key) ↔ range.Contains key) ∧
      ∀ p ∈ intersect ranges range, p.2.start < p.2.stop ∧
        ∀ key, p.2.Contains key → locateKey ranges key = .ok p.1) ∧
    (∀ (o : ShardOrchestrator) (left right : FreshShard) shardId splitKey plan,
      o.store.getShardMap table = some map →
      (∀ fresh ∈ [left, right], fresh.id ∉ map.shards.map (·.id)) → left.id ≠ right.id →
      o.planSplit left right table shardId splitKey = .ok plan →
      (o.commitSplit plan).store.getShardMap table = some plan.newMap ∧
        ∃ ranges', fromMap table plan.newMap = .ok ranges' ∧
          ∀ key, locateKey ranges key ≠ .ok shardId →
            locateKey ranges' key = locateKey ranges key) ∧
    ∀ (o : ShardOrchestrator) (fresh : FreshShard) leftId rightId plan,
      o.store.getShardMap table = some map → fresh.id ∉ map.shards.map (·.id) →
      o.planMerge fresh table leftId rightId = .ok plan →
      (o.commitMerge plan).store.getShardMap table = some plan.newMap ∧
        ∃ ranges', fromMap table plan.newMap = .ok ranges' ∧
          ∀ key, locateKey ranges key ≠ .ok leftId → locateKey ranges key ≠ .ok rightId →
            locateKey ranges' key = locateKey ranges key := by
  refine ⟨fun key => ?_, fun range => ?_, fun o left right shardId splitKey plan hstore hfresh hne
    hplan => split_accepted hmap hstore hfresh hne hplan, fun o fresh leftId rightId plan hstore
    hfresh hplan => merge_accepted hmap hstore hfresh hplan⟩
  · obtain ⟨-, shards, hperm, hcover, rfl⟩ := fromMap_eq_ok.mp hmap
    obtain ⟨shard, hs, howns, hlocate⟩ := exists_owner hcover key
    refine ⟨shard, hperm.mem_iff.mp hs, hlocate, howns, fun other hother hkey => ?_⟩
    exact hcover.tiles.holds_unique (hperm.mem_iff.mpr hother) hs hkey howns
  · obtain ⟨-, shards, hperm, hcover, rfl⟩ := fromMap_eq_ok.mp hmap
    exact intersect_spec hcover range

end Maps

/-- A table with two shards, cut at the key `[5]`. -/
def twoShards : ShardMap :=
  ⟨9, [⟨2, [], 1, [], [], .pub, 9, [5], []⟩, ⟨1, [], 1, [], [], .pub, 9, [], [5]⟩]⟩

/-- Its first shard is split at `[3]`, and its second one keeps the key `[7]`. -/
theorem twoShards_split :
    ∃ ranges plan ranges', RoutingSnapshot.fromMap 9 twoShards = .ok ranges ∧
      planSplit ⟨MemMetaStore.new.updateShardMap twoShards, .empty⟩ ⟨3, []⟩ ⟨4, []⟩ 9 1 [3] =
        .ok plan ∧
      RoutingSnapshot.fromMap 9 plan.newMap = .ok ranges' ∧
      RoutingSnapshot.locateKey ranges [7] = .ok 2 ∧
      RoutingSnapshot.locateKey ranges' [7] = .ok 2 := by
  have hmap : RoutingSnapshot.fromMap 9 twoShards =
      .ok [⟨1, 1, [], [5]⟩, ⟨2, 1, [5], []⟩] := by decide +kernel
  have hplan : (planSplit ⟨MemMetaStore.new.updateShardMap twoShards, .empty⟩ ⟨3, []⟩ ⟨4, []⟩ 9 1
      [3]).toOption.isSome = true := by decide +kernel
  have hlocate : RoutingSnapshot.locateKey [⟨1, 1, [], [5]⟩, ⟨2, 1, [5], []⟩] [7] = .ok 2 := by
    decide +kernel
  cases hp : planSplit ⟨MemMetaStore.new.updateShardMap twoShards, .empty⟩ ⟨3, []⟩ ⟨4, []⟩ 9 1
      [3] with
  | error e =>
    rw [hp] at hplan
    cases hplan
  | ok plan =>
    obtain ⟨-, -, hsplit, -⟩ := routing_partition hmap
    obtain ⟨-, ranges', hranges', howner⟩ :=
      hsplit _ _ _ _ _ _ rfl (by decide +kernel) (by decide +kernel) hp
    refine ⟨_, plan, ranges', hmap, rfl, hranges', hlocate, ?_⟩
    rw [howner [7] (by rw [hlocate]; decide), hlocate]

end ShardOrchestrator

end NodusDb
