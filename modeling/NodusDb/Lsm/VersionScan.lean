import NodusDb.Lsm.Lookup

/-!
# Version scans

Both engines list the versions of a range by key and then by version: the commits of every key
(`scanVersions_ref`), or the union of the layers (`scanVersions_spec`). Each list is strictly
sorted, so its elements determine it. An intent carries the version `u64::MAX`, so read timestamps
are below.
-/

namespace NodusDb

namespace KvVersion

variable {V : Type}

def lt (a b : KvVersion V) : Prop := a.key < b.key ∨ (a.key = b.key ∧ a.version < b.version)

instance : Std.Asymm (lt (V := V)) where
  asymm a b hab hba := by
    rcases hab with hab | ⟨hk, hv⟩
    · rcases hba with hba | ⟨hk', -⟩
      · exact lt_asymm hab hba
      · exact absurd hab (hk' ▸ lt_irrefl _)
    · rcases hba with hba | ⟨-, hv'⟩
      · exact absurd hba (hk ▸ lt_irrefl _)
      · exact lt_asymm hv hv'

theorem le_of_lt (h : lt a b) : le a b :=
  h.imp id fun h => ⟨h.1, h.2.le⟩

end KvVersion

namespace MemKvEngine

variable {V : Type} {sinceTs readTs : Nat}

theorem mem_versionsOf :
    v ∈ versionsOf sinceTs readTs e ↔
      v.key = e.1 ∧ ∃ m ∈ e.2.versions, m.isIntent = false ∧ sinceTs < m.version ∧
        m.version ≤ readTs ∧ v.value = m.value ∧ v.version = m.version := by
  unfold versionsOf
  rw [List.mem_map]
  constructor
  · rintro ⟨m, hm, rfl⟩
    obtain ⟨hmem, hp⟩ := List.mem_filter.mp hm
    simp only [Bool.and_eq_true, Bool.not_eq_true', decide_eq_true_eq] at hp
    exact ⟨rfl, m, hmem, hp.1.1, hp.1.2, hp.2, rfl, rfl⟩
  · rintro ⟨hk, m, hmem, hi, hs, hr, hv, hver⟩
    refine ⟨m, List.mem_filter.mpr ⟨hmem, by simp [hi, hs, hr]⟩, ?_⟩
    obtain ⟨key, value, version⟩ := v
    cases hk
    cases hv
    cases hver
    rfl

theorem flatMap_versionsOf_sorted {entries : List (Bytes × VersionChain V)}
    (hs : entries.Pairwise fun a b => a.1 < b.1)
    (hv : ∀ e ∈ entries, (e.2.versions.filter fun v => decide (v.version ≤ readTs)).Pairwise
      fun a b => a.isIntent = false → b.isIntent = false → a.version < b.version) :
    (entries.flatMap (versionsOf sinceTs readTs)).Pairwise KvVersion.lt := by
  rw [List.pairwise_flatMap]
  refine ⟨fun e he => ?_, hs.imp fun {a b} hab x hx y hy => ?_⟩
  · unfold versionsOf
    rw [List.pairwise_map]
    have hsplit : e.2.versions.filter (fun v => !v.isIntent && decide (sinceTs < v.version) &&
        decide (v.version ≤ readTs)) = (e.2.versions.filter fun v =>
        decide (v.version ≤ readTs)).filter fun v =>
          !v.isIntent && decide (sinceTs < v.version) := by
      rw [List.filter_filter]
    rw [hsplit, List.pairwise_filter]
    refine (hv e he).imp fun {a b} hlt ha hb => .inr ⟨rfl, hlt ?_ ?_⟩
    · simp only [Bool.and_eq_true, Bool.not_eq_true'] at ha
      exact ha.1
    · simp only [Bool.and_eq_true, Bool.not_eq_true'] at hb
      exact hb.1
  · have hx' := (mem_versionsOf.mp hx).1
    have hy' := (mem_versionsOf.mp hy).1
    exact .inl (hx' ▸ hy' ▸ hab)

end MemKvEngine

namespace Lsm

open LsmKvEngine

section Mem

variable {m : Table Bytes} {start stop : Bytes} {sinceTs readTs : Nat}

theorem scanVersions_ref (hm : m.WF) (hinc : Increasing m) (hle : start ≤ stop)
    (sinceTs readTs : Nat) :
    ∃ rows, MemKvEngine.scanVersions m start stop sinceTs readTs = .ok rows ∧
      rows.Pairwise KvVersion.lt ∧
      ∀ v, v ∈ rows ↔ (start ≤ v.key ∧ v.key < stop) ∧
        ∃ e ∈ commitsAt m v.key, sinceTs < e.version ∧ e.version ≤ readTs ∧
          v.value = e.value ∧ v.version = e.version := by
  have hchain : ∀ {k c}, m.store.get? k = some c → c = m.chainAt k := fun hget => by
    rw [Table.chainAt, hget]
    rfl
  have hsorted : ((m.store.range start stop).flatMap
      (MemKvEngine.versionsOf sinceTs readTs)).Pairwise KvVersion.lt := by
    refine MemKvEngine.flatMap_versionsOf_sorted (m.store.sorted.sublist List.filter_sublist) ?_
    rintro ⟨k, c⟩ he
    have hc := hchain (OrdMap.mem_range.mp he).1
    rw [hm.chainAt_eq] at hc
    refine List.Pairwise.filter _ ?_
    rw [hc]
    show ((m.view k).commits ++ _).Pairwise _
    refine List.pairwise_append.mpr ⟨(hinc k).imp fun hlt _ _ => hlt, ?_, fun a _ b hb _ hi => ?_⟩
    · cases (m.view k).pending <;> simp
    · obtain ⟨p, -, rfl⟩ := Option.map_eq_some_iff.mp (Option.mem_toList.mp hb)
      cases hi
  refine ⟨_, ?_, hsorted, fun v => ?_⟩
  · rw [MemKvEngine.scanVersions, rangeEntries, if_neg (not_lt.mpr hle)]
    exact congrArg Except.ok (hsorted.imp fun h => KvVersion.le_of_lt h).insertionSort_eq
  rw [List.mem_flatMap]
  have hset := commitSet_chainAt (k := v.key) hm
  constructor
  · rintro ⟨⟨k, c⟩, he, hv⟩
    obtain ⟨hget, hin⟩ := OrdMap.mem_range.mp he
    obtain ⟨hk, e, hmem, hi, hs, hr, hval, hver⟩ := MemKvEngine.mem_versionsOf.mp hv
    have hk' : v.key = k := hk
    subst hk'
    refine ⟨hin, e, ?_, hs, hr, hval, hver⟩
    rw [← hset, ← hchain hget]
    exact ⟨hmem, hi⟩
  · rintro ⟨hin, e, he, hs, hr, hval, hver⟩
    rw [← hset] at he
    obtain ⟨c, hget⟩ : ∃ c, m.store.get? v.key = some c := by
      cases hget : m.store.get? v.key with
      | some c => exact ⟨c, rfl⟩
      | none =>
        have := he.1
        rw [Table.chainAt, hget] at this
        exact absurd this List.not_mem_nil
    refine ⟨(v.key, c), OrdMap.mem_range.mpr ⟨hget, hin⟩, MemKvEngine.mem_versionsOf.mpr
      ⟨rfl, e, ?_, he.2, hs, hr, hval, hver⟩⟩
    rw [show ((v.key, c) : Entry).2 = m.chainAt v.key from hchain hget]
    exact he.1

end Mem

/-! ## The persistent engine -/

section Order

theorem valueLe_total (a b : Option Bytes) : valueLe a b = true ∨ valueLe b a = true := by
  cases a with
  | none => exact .inl rfl
  | some x =>
    cases b with
    | none => exact .inr rfl
    | some y =>
      rcases le_total x y with h | h
      · exact .inl (decide_eq_true h)
      · exact .inr (decide_eq_true h)

theorem valueLe_trans (hab : valueLe a b = true) (hbc : valueLe b c = true) :
    valueLe a c = true := by
  cases a with
  | none => rfl
  | some x =>
    cases b with
    | none => cases hab
    | some y =>
      cases c with
      | none => cases hbc
      | some z => exact decide_eq_true ((of_decide_eq_true hab).trans (of_decide_eq_true hbc))

theorem versionLe_iff :
    versionLe a b = true ↔
      a.version < b.version ∨ (a.version = b.version ∧ valueLe a.value b.value = true) := by
  rw [versionLe, Bool.or_eq_true, Bool.and_eq_true, decide_eq_true_eq, decide_eq_true_eq]

instance : Std.Total fun a b : MvccValue Bytes => versionLe a b = true where
  total a b := by
    rw [versionLe_iff, versionLe_iff]
    rcases lt_trichotomy a.version b.version with h | h | h
    · exact .inl (.inl h)
    · rcases valueLe_total a.value b.value with hv | hv
      · exact .inl (.inr ⟨h, hv⟩)
      · exact .inr (.inr ⟨h.symm, hv⟩)
    · exact .inr (.inl h)

instance : IsTrans (MvccValue Bytes) fun a b => versionLe a b = true where
  trans a b c := by
    rw [versionLe_iff, versionLe_iff, versionLe_iff]
    rintro (hab | ⟨hab, hva⟩) (hbc | ⟨hbc, hvb⟩)
    · exact .inl (hab.trans hbc)
    · exact .inl (hbc ▸ hab)
    · exact .inl (hab ▸ hbc)
    · exact .inr ⟨hab.trans hbc, valueLe_trans hva hvb⟩

theorem mem_sortVersions : e ∈ (sortVersions c).versions ↔ e ∈ c.versions := by
  show e ∈ dedupAdjacent _ ↔ _
  rw [mem_dedupAdjacent, List.mem_insertionSort]

theorem sortVersions_sorted
    (hinj : ∀ a ∈ c.versions, ∀ b ∈ c.versions, a.version ≤ readTs → a.version = b.version → a =
      b) :
    ((sortVersions c).versions.filter fun v => decide (v.version ≤ readTs)).Pairwise
      fun a b => a.version < b.version := by
  have hsorted : (c.versions.insertionSort fun a b => versionLe a b = true).Pairwise
      fun a b => a.version ≤ b.version :=
    (List.pairwise_insertionSort (fun a b : MvccValue Bytes => versionLe a b = true) c.versions).imp
      fun h => (versionLe_iff.mp h).elim le_of_lt fun h => h.1.le
  refine filter_dedupAdjacent_sorted hsorted fun a ha b hb hp hab => ?_
  exact hinj a ((List.mem_insertionSort _).mp ha) b ((List.mem_insertionSort _).mp hb)
    (of_decide_eq_true hp) hab

end Order

section Merged

variable {start stop k : Bytes}

theorem filter_range (data : Layer) :
    data.entries.filter (fun e => decide (start ≤ e.1) && decide (e.1 < stop)) =
      data.range start stop := by
  refine List.filter_congr fun e _ => ?_
  rw [Bool.eq_iff_iff]
  simp only [Bool.and_eq_true, decide_eq_true_eq]

theorem flatMap_range (data : Layer) :
    ((data.range start stop).flatMap fun e => if k = e.1 then e.2.versions else []) =
      if start ≤ k ∧ k < stop then versionsAt data k else [] := by
  have hentries : data.range start stop =
      (data.filter fun key _ => decide (start ≤ key) && decide (key < stop)).entries :=
    (filter_range data).symm
  rw [hentries, flatMap_entries, versionsAt, OrdMap.get?_filter]
  cases hget : data.get? k with
  | none => rw [versionsAt, hget]; split <;> rfl
  | some c =>
    rw [versionsAt, hget, Option.filter_some]
    by_cases hin : start ≤ k ∧ k < stop
    · rw [if_pos hin, if_pos (by simp [hin])]
    rw [if_neg hin, if_neg (by simpa using hin)]
    rfl

variable [ChainCodec]

theorem versionsAt_merged (t : Table Bytes) (layers : List Layer) :
    versionsAt ((t.store.range start stop).foldl mergeEntry
      ((layers.reverse.map Sstable.build).foldl (fun merged t =>
        (t.iter.filter fun e => decide (start ≤ e.1) && decide (e.1 < stop)).foldl
          mergeEntry merged) .empty)) k =
      if start ≤ k ∧ k < stop then allVersions t layers k else [] := by
  have hfold : ∀ (ls : List Layer) merged,
      versionsAt ((ls.map Sstable.build).foldl (fun merged t =>
        (t.iter.filter fun e => decide (start ≤ e.1) && decide (e.1 < stop)).foldl
          mergeEntry merged) merged) k =
        versionsAt merged k ++ if start ≤ k ∧ k < stop then ls.flatMap (versionsAt · k) else [] := by
    intro ls
    induction ls with
    | nil => intro merged; simp
    | cons data ls ih =>
      intro merged
      rw [List.map_cons, List.foldl_cons, ih, Sstable.iter_build, versionsAt_foldl]
      rw [filter_range, flatMap_range]
      split
      · rw [List.flatMap_cons, List.append_assoc]
      · rw [List.append_nil]
  rw [versionsAt_foldl, hfold, flatMap_range]
  show [] ++ _ ++ _ = _
  rw [List.nil_append, allVersions]
  split <;> rfl

variable {s : LsmKvEngine} {m : Table Bytes} {layers : List Layer}
  {segs : List Segment} {W sinceTs readTs : Nat}

omit [ChainCodec] in
theorem Answers.mem_union_of_le (h : Answers t m layers W) (hr : readTs < u64Max)
    (he : e ∈ allVersions t layers k) (hle : e.version ≤ readTs) :
    e ∈ unionAll (stackAt t layers k) := by
  refine h.mem_allVersions.mp ⟨he, ?_⟩
  rcases List.mem_append.mp he with hl | ht
  · obtain ⟨data, hdata, hed⟩ := List.mem_flatMap.mp hl
    exact h.committed (k := k) ⟨layerAt data k, List.mem_cons_of_mem _
      (List.mem_map_of_mem (f := (layerAt · k)) (List.mem_reverse.mp hdata)), hed⟩
  have hchain : versionsAt t.store k = (t.view k).chain.versions := by
    rw [← h.wf.chainAt_eq]
    rfl
  rw [hchain] at ht
  rcases List.mem_append.mp ht with hc | hp
  · exact (t.view k).committed e hc
  obtain ⟨p, -, rfl⟩ := Option.map_eq_some_iff.mp (Option.mem_toList.mp hp)
  exact absurd hle (not_le.mpr hr)

theorem scanVersions_spec (hd : s.OnDisk layers segs) (h : Answers s.table m layers W)
    (hinc : Increasing m) (hle : start ≤ stop) (hr : readTs < u64Max) (sinceTs : Nat) :
    ∃ rows, s.scanVersions start stop sinceTs readTs = .ok rows ∧
      rows.Pairwise KvVersion.lt ∧
      ∀ v, v ∈ rows ↔ (start ≤ v.key ∧ v.key < stop) ∧
        ∃ e ∈ unionAll (stackAt s.table layers v.key), sinceTs < e.version ∧ e.version ≤ readTs ∧
          v.value = e.value ∧ v.version = e.version := by
  generalize hmerged : (s.table.store.range start stop).foldl mergeEntry
    ((layers.reverse.map Sstable.build).foldl (fun merged t =>
      (t.iter.filter fun e => decide (start ≤ e.1) && decide (e.1 < stop)).foldl
        mergeEntry merged) .empty) = merged
  have hat : ∀ k, versionsAt merged k =
      if start ≤ k ∧ k < stop then allVersions s.table layers k else [] := fun k => by
    rw [← hmerged, versionsAt_merged]
  have hunion : ∀ {k e}, e ∈ versionsAt merged k → e.version ≤ readTs →
      (start ≤ k ∧ k < stop) ∧ e ∈ unionAll (stackAt s.table layers k) := by
    intro k e he hver
    rw [hat] at he
    split at he
    next hin => exact ⟨hin, h.mem_union_of_le hr he hver⟩
    · exact absurd he List.not_mem_nil
  have hget : ∀ {k c}, (k, c) ∈ merged.entries → c.versions = versionsAt merged k := fun he => by
    rw [versionsAt, OrdMap.mem_entries.mp he]
    rfl
  have hsorted : (merged.entries.flatMap fun e => MemKvEngine.versionsOf sinceTs readTs
      (e.1, sortVersions e.2)).Pairwise KvVersion.lt := by
    have hmap : (merged.entries.flatMap fun e => MemKvEngine.versionsOf sinceTs readTs
        (e.1, sortVersions e.2)) = (merged.entries.map fun e => (e.1, sortVersions e.2)).flatMap
          (MemKvEngine.versionsOf sinceTs readTs) := by
      rw [List.flatMap_map]
    rw [hmap]
    refine MemKvEngine.flatMap_versionsOf_sorted (List.pairwise_map.mpr merged.sorted) ?_
    intro e he
    obtain ⟨⟨k, c⟩, hkc, rfl⟩ := List.mem_map.mp he
    refine (sortVersions_sorted fun a ha b hb hle hab => ?_).imp fun hlt _ _ => hlt
    rw [hget hkc] at ha hb
    have hsub := (h.layered k).union_sub
    exact hinc.injOn k (hsub (hunion ha hle).2) (hsub (hunion hb (hab ▸ hle)).2) hab
  refine ⟨_, ?_, hsorted, fun v => ?_⟩
  · rw [LsmKvEngine.scanVersions, hd.readTables, rangeEntries, if_neg (not_lt.mpr hle)]
    simp only [Except.map, hmerged]
    exact congrArg Except.ok (hsorted.imp fun h => KvVersion.le_of_lt h).insertionSort_eq
  rw [List.mem_flatMap]
  constructor
  · rintro ⟨⟨k, c⟩, hkc, hv⟩
    obtain ⟨hk, e, hmem, -, hs, hle', hval, hver⟩ := MemKvEngine.mem_versionsOf.mp hv
    have hk' : v.key = k := hk
    subst hk'
    rw [mem_sortVersions, hget hkc] at hmem
    obtain ⟨hin, hu⟩ := hunion hmem hle'
    exact ⟨hin, e, hu, hs, hle', hval, hver⟩
  · rintro ⟨hin, e, he, hs, hle', hval, hver⟩
    obtain ⟨hmem, hi⟩ := h.mem_allVersions.mpr he
    have hmem' : e ∈ versionsAt merged v.key := by
      rw [hat, if_pos hin]
      exact hmem
    obtain ⟨c, hc⟩ : ∃ c, merged.get? v.key = some c := by
      cases hc : merged.get? v.key with
      | some c => exact ⟨c, rfl⟩
      | none =>
        rw [versionsAt, hc] at hmem'
        exact absurd hmem' List.not_mem_nil
    refine ⟨(v.key, c), OrdMap.mem_entries.mpr hc, MemKvEngine.mem_versionsOf.mpr
      ⟨rfl, e, ?_, hi, hs, hle', hval, hver⟩⟩
    rw [mem_sortVersions, hget (OrdMap.mem_entries.mpr hc)]
    exact hmem'

end Merged

end Lsm

end NodusDb
