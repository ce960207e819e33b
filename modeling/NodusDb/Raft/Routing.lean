import NodusDb.Raft.Records

/-!
# Routing

The metadata store has the shard map of every table and the placements of all
shards. A plan carries the content it was made against, and compares it with
the store in a canonical order.
-/

namespace NodusDb

/-! ## The metadata store -/

structure MemMetaStore where
  maps : OrdMap TableId ShardMap
  placements : Placements
  deriving DecidableEq

namespace MemMetaStore

def new : MemMetaStore := ⟨.empty, .empty⟩

/-- The map of a table; a table without one is not sharded. -/
def getShardMap (s : MemMetaStore) (table : TableId) : Option ShardMap := s.maps.get? table

def updateShardMap (s : MemMetaStore) (map : ShardMap) : MemMetaStore :=
  { s with maps := s.maps.insert map.tableId map }

def getShardPlacements (s : MemMetaStore) : Placements := s.placements

def updateShardPlacements (s : MemMetaStore) (placements : Placements) : MemMetaStore :=
  { s with placements := placements }

end MemMetaStore

/-! ## Snapshots of a table's routing -/

structure Range where
  id : ShardId
  version : UInt64
  start : Bytes
  stop : Bytes
  deriving DecidableEq, Repr

namespace RoutingSnapshot

/-- Check the next shard against the ranges so far. -/
def pushShard (table : TableId) (ranges : List Range) (shard : ShardDescriptor) :
    Result (List Range) := do
  ensure (shard.tableId = table ∧ shard.state = .pub)
    "invalid shard map: non-public or mismatched shard"
  ensure (shard.id ∉ ranges.map (·.id)) "invalid shard map: duplicate shard"
  ensure (shard.endKey = [] ∨ shard.startKey < shard.endKey)
    "invalid shard map: reversed or empty range"
  match ranges.getLast? with
  | some previous =>
    ensure (previous.stop ≠ [] ∧ previous.stop = shard.startKey) "invalid shard map: gap or overlap"
  | none => ensure (shard.startKey = []) "invalid shard map: missing lower bound"
  pure (ranges ++ [⟨shard.id, shard.version, shard.startKey, shard.endKey⟩])

def fromMap (table : TableId) (map : ShardMap) : Result (List Range) := do
  ensure (map.tableId = table) "invalid shard map: table identity mismatch"
  ensure (map.shards ≠ []) "invalid shard map: empty coverage"
  let ranges ← (map.shards.insertionSort fun a b => a.startKey ≤ b.startKey).foldlM
    (pushShard table) []
  ensure (ranges.getLast?.any (·.stop = [])) "invalid shard map: missing upper bound"
  pure ranges

end RoutingSnapshot

/-- `CatalogShardRouter::snapshot`. -/
def MemMetaStore.snapshot (s : MemMetaStore) (table : TableId) : Result (Option (List Range)) :=
  match s.getShardMap table with
  | some map => (RoutingSnapshot.fromMap table map).map some
  | none => .ok none

/-! ## Canonical content -/

/-- A map with its shards in the order of their ids. -/
def canonical (map : Option ShardMap) : Option ShardMap :=
  map.map fun map =>
    { map with shards := map.shards.insertionSort fun a b => a.id.toText ≤ b.id.toText }

/-- Placements by the texts of their shards. -/
def canonicalPlacements (placements : Placements) : OrdMap Bytes Bytes :=
  placements.entries.foldl (fun m e => m.insert e.1.toText e.2) .empty

/-! ## Encoding -/

def jsonOption {α : Type} (f : α → Bytes) : Option α → Bytes
  | some a => f a
  | none => ascii "null"

def DescriptorState.json : DescriptorState → Bytes
  | pub => jsonString (ascii "Public")
  | adding => jsonString (ascii "Adding")
  | dropping => jsonString (ascii "Dropping")
  | dropped => jsonString (ascii "Dropped")

namespace Raft

/-- A `Vec<u8>` is an array of numbers. -/
def jsonBytes (b : Bytes) : Bytes := jsonArray (b.map fun c => jsonNumber c.toNat)

def ShardDescriptor.json (s : ShardDescriptor) : Bytes :=
  jsonObject [(ascii "id", jsonUuid s.id), (ascii "name", jsonString s.name),
    (ascii "version", jsonU64 s.version), (ascii "created_at", jsonString s.createdAt),
    (ascii "updated_at", jsonString s.updatedAt), (ascii "state", s.state.json),
    (ascii "table_id", jsonUuid s.tableId), (ascii "start_key", jsonBytes s.startKey),
    (ascii "end_key", jsonBytes s.endKey)]

def ShardMap.json (m : ShardMap) : Bytes :=
  jsonObject [(ascii "table_id", jsonUuid m.tableId),
    (ascii "shards", jsonArray (m.shards.map ShardDescriptor.json))]

def placementsJson (placements : Placements) : Bytes :=
  jsonObject (placements.entries.map fun e => (e.1.toText, jsonString e.2))

namespace Migration

def MigrationPlan.json (p : MigrationPlan) : Bytes :=
  jsonObject [(ascii "operation_id", jsonUuid p.operationId), (ascii "table_id", jsonUuid p.tableId),
    (ascii "source_epochs", jsonObject (p.sourceEpochs.entries.map fun e => (e.1, jsonU64 e.2))),
    (ascii "sources", jsonArray (p.sources.map jsonString)),
    (ascii "destinations", jsonArray (p.destinations.map jsonString))]

def PlanV2.json (p : PlanV2) : Bytes :=
  jsonObject [(ascii "migration", p.migration.json),
    (ascii "expected_map", jsonOption ShardMap.json p.expectedMap)]

def PlanV3.json (p : PlanV3) : Bytes :=
  jsonObject [(ascii "migration", p.migration.json),
    (ascii "expected_map", jsonOption ShardMap.json p.expectedMap),
    (ascii "expected_placements", placementsJson p.expectedPlacements),
    (ascii "destination_map", jsonOption ShardMap.json p.destinationMap),
    (ascii "destination_placements", placementsJson p.destinationPlacements)]

end Migration

end Raft

end NodusDb
