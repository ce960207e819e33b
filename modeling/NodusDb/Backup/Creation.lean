import NodusDb.Backup.Deletion

/-!
# Creating backups

* `created_backup_restores`: a full backup restores to the objects it was made of.
-/

namespace NodusDb.BackupOrchestrator

open Result List

section Create

theorem dataKey_inj : dataKey backupId a = dataKey backupId b ↔ a = b :=
  append_right_inj _

theorem ne_of_dataPrefix (h : dataPrefix backupId <+: key) (hm : ending[1]? = some 109) :
    key ≠ backupId ++ ending := by
  rintro rfl
  obtain ⟨rest, hrest⟩ := (prefix_append_right_inj backupId).mp h
  rw [← hrest] at hm
  cases hm

variable [Hashes]

theorem uploadObjects_spec (repo : BackupRepository) (backupId : Bytes)
    (objects : List BackupObject) :
    (uploadObjects repo backupId objects).2.1 = objects.map (fun o => dataKey backupId o.name) ∧
      ((objects.map (·.name)).Nodup → ∀ o ∈ objects,
        (uploadObjects repo backupId objects).1.get? (dataKey backupId o.name) = some o.bytes) := by
  induction objects using List.reverseRecOn with
  | nil => exact ⟨rfl, by simp⟩
  | append_singleton objects last ih =>
    obtain ⟨hfiles, hbytes⟩ := ih
    rw [uploadObjects, foldl_append] at *
    refine ⟨by simp only [foldl_cons, foldl_nil, map_append, map_cons, map_nil, ← hfiles],
      fun hnodup o ho => ?_⟩
    rw [map_append, nodup_append] at hnodup
    refine (OrdMap.get?_insert _ _ _ _).trans ?_
    rcases mem_append.mp ho with ho | ho
    · rw [if_neg, ← hbytes hnodup.1 o ho]
      rw [dataKey_inj]
      exact hnodup.2.2 _ (mem_map_of_mem ho) _ (by simp)
    · rw [mem_singleton.mp ho, if_pos rfl]

variable [BackupCodec] {repo repo' : BackupRepository} {manifest : BackupManifest}

theorem publish_eq_ok (h : publish repo pending = (repo', .ok manifest))
    (hcodec : BackupCodec.parseManifest (BackupCodec.manifestText manifest) = some manifest)
    (htype : pending.backupType = .full)
    (hfiles : ∀ key ∈ pending.files, dataPrefix pending.backupId <+: key) :
    Checked repo' pending.backupId manifest none ∧
      manifest = { pending with status := .completed } ∧
      ∀ key ∈ pending.files, repo'.get? key = repo.get? key := by
  dsimp only [publish] at h
  split at h
  · cases h
  split at h
  · cases h
  split at h
  · cases h
  next hverify =>
  cases h
  simp only [verify, bind_eq_ok, ensure_eq_ok, pure_eq_ok] at hverify
  obtain ⟨m, hload, -, hstatus, ⟨⟩, hchecks, generation, hgen, -⟩ := hverify
  obtain rfl : m = { pending with status := .completed } := by
    simp only [loadManifest, bind_eq_ok, required_eq_ok, ensure_eq_ok, pure_eq_ok,
      getObject_eq_ok] at hload
    obtain ⟨body, hbody, m', hparse, -, -, rfl⟩ := hload
    rw [OrdMap.get?_insert_self] at hbody
    cases hbody
    exact Option.some.inj (hparse.symm.trans hcodec)
  have hpending : ∀ key ∈ pending.files, key ≠ pendingManifestKey pending.backupId :=
    fun key hkey => ne_of_dataPrefix (hfiles key hkey) rfl
  have hmanifest : ∀ key ∈ pending.files, key ≠ manifestKey pending.backupId :=
    fun key hkey => ne_of_dataPrefix (hfiles key hkey) rfl
  have hsame : ∀ {repo : BackupRepository}, ∀ key ∈ pending.files,
      (repo.erase (pendingManifestKey pending.backupId)).get? key = repo.get? key :=
    fun key hkey => by rw [OrdMap.get?_erase, if_neg (hpending key hkey)]
  refine ⟨⟨?_, hstatus, ?_, ⟨generation, ?_⟩, .inl ⟨htype, rfl⟩⟩, rfl, fun key hkey => ?_⟩
  · rw [← hload]
    refine loadManifest_congr ?_
    rw [OrdMap.get?_erase, if_neg]
    exact fun h => absurd (append_right_inj _ |>.mp h) (by decide)
  · rw [← hchecks]
    exact verifyManifestFiles_congr hsame
  · rw [← hgen]
    exact manifestGeneration_congr fun key hkey _ => hsame key hkey
  · rw [hsame key hkey, OrdMap.get?_insert_of_ne (hmanifest key hkey),
      OrdMap.get?_insert_of_ne (hpending key hkey)]

/-- A full backup of objects with different names restores to these objects. -/
theorem created_backup_restores {source : Option (Option RecoveryGeneration)}
    {request : BackupRequest}
    (h : createFullBackupNamed repo source request = (repo', .ok manifest))
    (hcodec : BackupCodec.parseManifest (BackupCodec.manifestText manifest) = some manifest)
    (hnames : (request.objects.map (·.name)).Nodup) :
    Restores repo' request.backupId request.objects := by
  unfold createFullBackupNamed at h
  split at h
  · cases h
  next repo₀ _ =>
  obtain ⟨hfiles, hbytes⟩ := uploadObjects_spec repo₀ request.backupId request.objects
  rw [createFrom] at h
  rcases hup : uploadObjects repo₀ request.backupId request.objects with ⟨repo₁, files, checksums⟩
  rw [hup] at h hfiles hbytes
  obtain rfl : files = _ := hfiles
  have hunder : ∀ key ∈ request.objects.map fun o => dataKey request.backupId o.name,
      dataPrefix request.backupId <+: key := by
    intro key hkey
    obtain ⟨o, -, rfl⟩ := mem_map.mp hkey
    exact prefix_append _ _
  obtain ⟨hchecked, hmanifest, hkept⟩ := publish_eq_ok h hcodec rfl hunder
  refine ⟨1, restore_eq_ok.mpr ⟨manifest, none, hchecked, request.objects, ?_, .inl ⟨rfl, rfl⟩⟩⟩
  rw [hmanifest, restoreManifestObjects]
  refine mapM_map_of_ok fun o ho => ?_
  rw [getObject_eq_ok.mpr ((hkept _ (mem_map_of_mem ho)).trans (hbytes hnames o ho))]
  show Except.ok _ = _
  rw [dataKey, stripStart, if_pos (by simp), drop_left]

end Create

open Fixed

def twoObjects : BackupRequest :=
  ⟨ascii "a", ascii "c", 10, 1, [⟨ascii "t", [7]⟩, ⟨ascii "u", [8, 9]⟩]⟩

/-- Texts that are read as the manifest of that backup. -/
@[reducible] def oneManifest : BackupCodec :=
  { backupCodec with
    parseManifest := fun _ => (createFullBackupNamed .empty none twoObjects).2.toOption }

theorem two_objects_restore : letI := oneManifest
    ∃ repo manifest, createFullBackupNamed .empty none twoObjects = (repo, .ok manifest) ∧
      Restores repo (ascii "a") twoObjects.objects := by
  let := oneManifest
  obtain ⟨repo, manifest, h, hcodec⟩ : ∃ repo manifest,
      createFullBackupNamed .empty none twoObjects = (repo, .ok manifest) ∧
        oneManifest.parseManifest (oneManifest.manifestText manifest) = some manifest :=
    ⟨_, _, rfl, rfl⟩
  exact ⟨repo, manifest, h, created_backup_restores h hcodec (by decide)⟩

end NodusDb.BackupOrchestrator
