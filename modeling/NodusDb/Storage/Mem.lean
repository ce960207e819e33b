import NodusDb.Storage.Table

/-!
# The in-memory engine

`MemKvEngine` is a table of chains with its intents index. Its mutations are
those of `Table`; this module has the reads.
-/

namespace NodusDb

abbrev MemKvEngine (V : Type) := Table V

namespace MemKvEngine

variable {V : Type}

def get (s : MemKvEngine V) (key : Bytes) (readTs : Nat) : Option V :=
  (s.store.get? key).bind (·.read readTs)

/-- The row a scan yields for a key, if its chain has a visible value. -/
def rowOf (readTs : Nat) (e : Bytes × VersionChain V) : Option (KvPair V) :=
  (e.2.read readTs).map fun value => ⟨e.1, value, e.2.visibleVersion readTs⟩

def scan (s : MemKvEngine V) (start stop : Bytes) (readTs : Nat) :
    Except ReadFault (List (KvPair V)) :=
  (rangeEntries s.store start stop).map fun entries => entries.filterMap (rowOf readTs)

/-- The committed versions of a key in `(sinceTs, readTs]`, in chain order. -/
def versionsOf (sinceTs readTs : Nat) (e : Bytes × VersionChain V) : List (KvVersion V) :=
  (e.2.versions.filter fun v =>
    !v.isIntent && decide (sinceTs < v.version) && decide (v.version ≤ readTs)).map fun v =>
    ⟨e.1, v.value, v.version⟩

def scanVersions (s : MemKvEngine V) (start stop : Bytes) (sinceTs readTs : Nat) :
    Except ReadFault (List (KvVersion V)) :=
  (rangeEntries s.store start stop).map fun entries =>
    (entries.flatMap (versionsOf sinceTs readTs)).insertionSort KvVersion.le

/-! ## Rows -/

theorem rowOf_eq_some_iff {key : Bytes} :
    rowOf readTs (key, c) = some row ↔
      row.key = key ∧ ∃ e, c.newestVisible readTs = some e ∧ e.value = some row.value ∧
        e.version = row.version := by
  unfold rowOf
  rw [Option.map_eq_some_iff]
  simp only [VersionChain.read_eq, Option.bind_eq_some_iff]
  constructor
  · rintro ⟨value, ⟨e, he, hv⟩, rfl⟩
    exact ⟨rfl, e, he, hv, (VersionChain.visibleVersion_eq he).symm⟩
  · rintro ⟨rfl, e, he, hv, hver⟩
    refine ⟨row.value, ⟨e, he, hv⟩, ?_⟩
    obtain ⟨k, v, n⟩ := row
    rw [VersionChain.visibleVersion_eq he]
    cases hver
    rfl

theorem scan_spec (m : MemKvEngine V) {start stop : Bytes} (hle : start ≤ stop) (readTs : Nat) :
    ∃ rows, scan m start stop readTs = .ok rows ∧
      rows.Pairwise (fun a b => a.key < b.key) ∧
      ∀ row, row ∈ rows ↔ (start ≤ row.key ∧ row.key < stop) ∧
        ∃ e, (m.chainAt row.key).newestVisible readTs = some e ∧ e.value = some row.value ∧
          e.version = row.version := by
  refine ⟨_, by rw [scan, rangeEntries, if_neg (not_lt.mpr hle)]; rfl, ?_, fun row => ?_⟩
  · have hsorted : (m.store.range start stop).Pairwise fun a b => a.1 < b.1 :=
      m.store.sorted.sublist List.filter_sublist
    refine hsorted.filterMap _ fun a b hab x hx y hy => ?_
    rw [(rowOf_eq_some_iff.mp hx).1, (rowOf_eq_some_iff.mp hy).1]
    exact hab
  rw [List.mem_filterMap]
  constructor
  · rintro ⟨⟨key, c⟩, hmem, hrow⟩
    obtain ⟨hget, hin⟩ := OrdMap.mem_range.mp hmem
    obtain ⟨rfl, hread⟩ := rowOf_eq_some_iff.mp hrow
    rw [Table.chainAt, hget]
    exact ⟨hin, hread⟩
  · rintro ⟨hin, e, he, hval, hver⟩
    rw [Table.chainAt] at he
    cases hget : m.store.get? row.key with
    | none =>
      rw [hget] at he
      cases he
    | some c =>
      rw [hget] at he
      exact ⟨(row.key, c), OrdMap.mem_range.mpr ⟨hget, hin⟩,
        rowOf_eq_some_iff.mpr ⟨rfl, e, he, hval, hver⟩⟩

theorem get_eq_read (s : MemKvEngine V) (key : Bytes) (readTs : Nat) :
    s.get key readTs = (s.chainAt key).read readTs := by
  rw [get, Table.chainAt]
  cases s.store.get? key <;> rfl

theorem get_eq_some_iff {s : MemKvEngine V} {key : Bytes} {readTs : Nat} {value : V} :
    s.get key readTs = some value ↔
      ∃ e, (s.chainAt key).newestVisible readTs = some e ∧ e.value = some value := by
  rw [get_eq_read, VersionChain.read_eq, Option.bind_eq_some_iff]

end MemKvEngine

end NodusDb
