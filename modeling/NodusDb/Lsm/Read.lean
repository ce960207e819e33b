import NodusDb.Lsm.Engine

/-!
# Reads of the persistent engine

`get` asks the memtable and then the table files, newest first, and stops at the
first source with a visible version. `scan` is a lazy merge of one sorted source
a table file and the memtable. `scan_versions` merges everything and sorts.
-/

namespace NodusDb.Lsm

namespace LsmKvEngine

def getFrom (disk : Disk) (key : Bytes) (readTs : Nat) :
    List Nat → Except ReadFault (Option Bytes)
  | [] => .ok none
  | id :: ids =>
    match disk.ssts.get? id with
    | none => .error (.missingSstable id)
    | some t =>
      match t.get key with
      | none => getFrom disk key readTs ids
      | some chain =>
        match chain.readVisible readTs with
        | .value value => .ok (some value)
        | .tombstone => .ok none
        | .absent => getFrom disk key readTs ids

def get (s : LsmKvEngine) (key : Bytes) (readTs : Nat) : Except ReadFault (Option Bytes) :=
  match s.table.store.get? key with
  | none => getFrom s.disk key readTs s.sstables.reverse
  | some chain =>
    match chain.readVisible readTs with
    | .value value => .ok (some value)
    | .tombstone => .ok none
    | .absent => getFrom s.disk key readTs s.sstables.reverse

/-- The version `get` reads, which it does not return. -/
def versionFrom (disk : Disk) (key : Bytes) (readTs : Nat) : List Nat → Option (MvccValue Bytes)
  | [] => none
  | id :: ids =>
    (((disk.ssts.get? id).bind (·.get key)).bind (·.newestVisible readTs)).or
      (versionFrom disk key readTs ids)

def versionOf (s : LsmKvEngine) (key : Bytes) (readTs : Nat) : Option (MvccValue Bytes) :=
  ((s.table.store.get? key).bind (·.newestVisible readTs)).or
    (versionFrom s.disk key readTs s.sstables.reverse)

end LsmKvEngine

/-! ## The lazy merge -/

/-- The smallest key at the front of a source. -/
def minKey (sources : List (List Entry)) : Option Bytes :=
  (sources.filterMap fun src => src.head?.map (·.1)).min?

/-- The front of a source, if it has this key. -/
def frontOf (key : Bytes) : List Entry → List (MvccValue Bytes)
  | (k, chain) :: _ => if k = key then chain.versions else []
  | [] => []

/-- A source without its front, if that has this key. -/
def advance (key : Bytes) : List Entry → List Entry
  | (k, chain) :: es => if k = key then es else (k, chain) :: es
  | [] => []

/-- The rows the merge yields: at each round the versions of all sources whose
front has the smallest key are put together and read. `fuel` bounds the number
of rounds. -/
def mergeScan (readTs : Nat) : (fuel : Nat) → List (List Entry) → List (KvPair Bytes)
  | 0, _ => []
  | fuel + 1, sources =>
    match minKey sources with
    | none => []
    | some key =>
      let chain : VersionChain Bytes := ⟨sources.flatMap (frontOf key)⟩
      let rest := mergeScan readTs fuel (sources.map (advance key))
      match MemKvEngine.rowOf readTs (key, chain) with
      | some row => row :: rest
      | none => rest

/-- Every round takes an entry, so the number of entries is fuel enough. -/
def lazyMergeScan (readTs : Nat) (sources : List (List Entry)) : List (KvPair Bytes) :=
  mergeScan readTs (sources.map List.length).sum sources

namespace LsmKvEngine

/-- The memtable range is read first, so an inverted range fails there. -/
def scan (s : LsmKvEngine) (start stop : Bytes) (readTs : Nat) :
    Except ReadFault (List (KvPair Bytes)) :=
  match rangeEntries s.table.store start stop with
  | .error e => .error e
  | .ok mem =>
    (readTables s.disk s.sstables).map fun tables =>
      lazyMergeScan readTs ((tables.map fun t =>
        (t.rangeIter start stop).filter fun e => decide (start ≤ e.1)) ++ [mem])

/-- `None` comes before every value. -/
def valueLe : Option Bytes → Option Bytes → Bool
  | none, _ => true
  | some _, none => false
  | some x, some y => decide (x ≤ y)

/-- The order in which `scan_versions` sorts the versions of one key. -/
def versionLe (a b : MvccValue Bytes) : Bool :=
  decide (a.version < b.version) || (decide (a.version = b.version) && valueLe a.value b.value)

def sortVersions (chain : VersionChain Bytes) : VersionChain Bytes :=
  ⟨dedupAdjacent (chain.versions.insertionSort fun a b => versionLe a b = true)⟩

def scanVersions (s : LsmKvEngine) (start stop : Bytes) (sinceTs readTs : Nat) :
    Except ReadFault (List (KvVersion Bytes)) :=
  match readTables s.disk s.sstables with
  | .error e => .error e
  | .ok tables =>
    (rangeEntries s.table.store start stop).map fun mem =>
      let merged := tables.foldl (fun merged t =>
        (t.iter.filter fun e => decide (start ≤ e.1) && decide (e.1 < stop)).foldl
          mergeEntry merged) .empty
      let merged := mem.foldl mergeEntry merged
      (merged.entries.flatMap fun e =>
        MemKvEngine.versionsOf sinceTs readTs (e.1, sortVersions e.2)).insertionSort KvVersion.le

end LsmKvEngine

end NodusDb.Lsm
