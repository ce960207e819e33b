import NodusDb.Backup.Repository
import NodusDb.Raft.Replica

/-!
# Deleting backups

A deletion is refused while a complete backup names the deleted one as its parent. It removes every
object under the id followed by a slash, whatever backup the object belongs to.

* `delete_keeps_others_iff`: it keeps every other restore exactly when none of their objects is
  under the deleted id.
* `delete_breaks_nested_id`: deleting `a` removes the backup `a/b`.
-/

namespace NodusDb.BackupOrchestrator

open Result List

section Reads

variable {repo repo' : BackupRepository} {backupId key id : Bytes} {manifest : BackupManifest}
  {parent : Option Bytes}

theorem getObject_congr (h : repo'.get? key = repo.get? key) :
    repo'.getObject key = repo.getObject key := by
  rw [BackupRepository.getObject, h, BackupRepository.getObject]

theorem getObject_eq_ok {bytes : Bytes} :
    repo.getObject key = .ok bytes ↔ repo.get? key = some bytes :=
  required_eq_ok

theorem restoreManifestObjects_congr (h : ∀ key ∈ manifest.files, repo'.get? key = repo.get? key) :
    restoreManifestObjects repo' manifest = restoreManifestObjects repo manifest := by
  unfold restoreManifestObjects
  generalize manifest.files = files at h ⊢
  induction files with
  | nil => rfl
  | cons key files ih =>
    simp only [mapM_cons, getObject_congr (h key mem_cons_self)]
    rw [ih fun k hk => h k (mem_cons_of_mem _ hk)]

theorem verifyManifestFiles_congr [Hashes]
    (h : ∀ key ∈ manifest.files, repo'.get? key = repo.get? key) :
    verifyManifestFiles repo' manifest = verifyManifestFiles repo manifest := by
  unfold verifyManifestFiles
  generalize manifest.files = files at h ⊢
  induction files with
  | nil => rfl
  | cons key files ih =>
    rw [List.forM, List.forM, ih fun k hk => h k (List.mem_cons_of_mem _ hk)]
    simp only [getObject_congr (h key mem_cons_self)]

theorem stripSuffix_eq_some {ending rest : Bytes} :
    stripSuffix ending key = some rest ↔ key = rest ++ ending := by
  unfold stripSuffix
  constructor
  · intro h
    split at h
    next hs =>
      obtain ⟨t, rfl⟩ := isSuffixOf_iff_suffix.mp hs
      rw [length_append, Nat.add_sub_cancel, take_left] at h
      rw [Option.some.inj h]
    · cases h
  · rintro rfl
    rw [if_pos (isSuffixOf_iff_suffix.mpr ⟨rest, rfl⟩), length_append, Nat.add_sub_cancel,
      take_left]

theorem get?_deleteObjects (keys : List Bytes) (key : Bytes) :
    (repo.deleteObjects keys).get? key = if key ∈ keys then none else repo.get? key := by
  unfold BackupRepository.deleteObjects
  induction keys generalizing repo with
  | nil => rfl
  | cons k keys ih =>
    rw [foldl_cons, ih, OrdMap.get?_erase]
    grind

theorem mem_objectsOf :
    key ∈ objectsOf repo backupId ↔ repo.get? key ≠ none ∧ backupId ++ ascii "/" <+: key := by
  rw [objectsOf, BackupRepository.listObjects, mem_filter, OrdMap.mem_keys, isPrefixOf_iff_prefix]

variable [BackupCodec]

/-! ## The objects a restore reads -/

inductive InChain (repo : BackupRepository) (backupId : Bytes) : Bytes → Prop
  | self : InChain repo backupId backupId
  | parent {id parent : Bytes} {manifest : BackupManifest} :
      InChain repo backupId id → loadManifest repo id = .ok manifest →
      manifest.backupType = .incremental → manifest.parentBackupId = some parent →
      InChain repo backupId parent

/-- A backup's manifest and the objects it lists. -/
def ownKeys (repo : BackupRepository) (backupId : Bytes) : List Bytes :=
  match loadManifest repo backupId with
  | .ok manifest => manifestKey backupId :: manifest.files
  | .error _ => [manifestKey backupId]

theorem manifestKey_mem_ownKeys (backupId : Bytes) :
    manifestKey backupId ∈ ownKeys repo backupId := by
  unfold ownKeys
  split <;> exact mem_cons_self

theorem mem_ownKeys_of_mem_files
    (h : loadManifest repo backupId = .ok manifest) (hkey : key ∈ manifest.files) :
    key ∈ ownKeys repo backupId := by
  rw [ownKeys, h]
  exact mem_cons_of_mem _ hkey

theorem InChain.trans (h : InChain repo a b) (h' : InChain repo b c) : InChain repo a c := by
  induction h' with
  | self => exact h
  | parent _ hload htype hparent ih => exact .parent ih hload htype hparent

theorem loadManifest_congr
    (h : repo'.get? (manifestKey backupId) = repo.get? (manifestKey backupId)) :
    loadManifest repo' backupId = loadManifest repo backupId := by
  rw [loadManifest, getObject_congr h, loadManifest]

/-- The repositories agree on what a backup reads. -/
def Agree (repo repo' : BackupRepository) (backupId : Bytes) : Prop :=
  ∀ key ∈ ownKeys repo backupId, repo'.get? key = repo.get? key

theorem Agree.loadManifest (h : Agree repo repo' backupId) :
    loadManifest repo' backupId = loadManifest repo backupId :=
  loadManifest_congr (h _ (manifestKey_mem_ownKeys backupId))

theorem Agree.files (h : Agree repo repo' backupId)
    (hload : BackupOrchestrator.loadManifest repo backupId = .ok manifest) :
    ∀ key ∈ manifest.files, repo'.get? key = repo.get? key :=
  fun key hkey => h key (mem_ownKeys_of_mem_files hload hkey)

/-! ## The scan -/

theorem scan_mono (keys : List Bytes) (scan : ManifestScan) :
    scan.completed ⊆ (keys.foldl (scanKey repo) scan).completed ∧
      scan.unreadable ⊆ (keys.foldl (scanKey repo) scan).unreadable := by
  induction keys generalizing scan with
  | nil => exact ⟨fun _ h => h, fun _ h => h⟩
  | cons key keys ih =>
    have hstep : scan.completed ⊆ (scanKey repo scan key).completed ∧
        scan.unreadable ⊆ (scanKey repo scan key).unreadable := by
      unfold scanKey
      split
      · exact ⟨fun _ h => h, fun _ h => h⟩
      split
      · split
        · exact ⟨fun _ h => h, fun _ h => h⟩
        · split
          · exact ⟨subset_append_left _ _, fun _ h => h⟩
          · exact ⟨fun _ h => h, subset_append_left _ _⟩
      · exact ⟨fun _ h => h, subset_append_left _ _⟩
    obtain ⟨hc, hu⟩ := ih (scanKey repo scan key)
    exact ⟨fun _ h => hc (hstep.1 h), fun _ h => hu (hstep.2 h)⟩

theorem scan_of_mem (h : repo.get? key ≠ none) :
    ∃ scan, (scanKey repo scan key).completed ⊆ (scanManifests repo).completed ∧
      (scanKey repo scan key).unreadable ⊆ (scanManifests repo).unreadable := by
  have hmem : key ∈ repo.listObjects [] := by
    rw [BackupRepository.listObjects, mem_filter]
    exact ⟨OrdMap.mem_keys.mpr h, rfl⟩
  obtain ⟨before, after, hsplit⟩ := append_of_mem hmem
  refine ⟨before.foldl (scanKey repo) ⟨[], []⟩, ?_⟩
  rw [scanManifests, hsplit, foldl_append, foldl_cons]
  exact scan_mono after _

/-- A manifest is there, but cannot be read or is complete and misses an object. -/
def Unreadable (repo : BackupRepository) (backupId : Bytes) : Prop :=
  repo.get? (manifestKey backupId) ≠ none ∧
    ∀ manifest, loadManifest repo backupId = .ok manifest →
      manifest.status = .completed ∧ ∃ key ∈ manifest.files, repo.get? key = none

theorem unreadable_ne_nil (h : Unreadable repo backupId) :
    (scanManifests repo).unreadable ≠ [] := by
  obtain ⟨scan, -, hu⟩ := scan_of_mem h.1
  have hstrip : stripSuffix manifestSuffix (manifestKey backupId) = some backupId :=
    stripSuffix_eq_some.mpr rfl
  have hadd : (scanKey repo scan (manifestKey backupId)).unreadable ≠ [] := by
    unfold scanKey
    simp only [hstrip]
    cases hload : loadManifest repo backupId with
    | error e => simp
    | ok manifest =>
      obtain ⟨hstatus, key, hkey, hnone⟩ := h.2 manifest hload
      have hmissing : manifestFilesPresent repo manifest = false := by
        refine all_eq_false.mpr ⟨key, hkey, ?_⟩
        rw [BackupRepository.objectExists, hnone]
        nofun
      simp [hstatus, hmissing]
  intro hnil
  rw [hnil] at hu
  exact hadd (subset_nil.mp hu)

/-! ## Deletions -/

theorem checkDelete_eq_ok :
    checkDelete repo backupId = .ok () ↔ (scanManifests repo).unreadable = [] ∧
      ∀ manifest ∈ (scanManifests repo).completed, manifest.parentBackupId ≠ some backupId := by
  simp [checkDelete, bind_eq_ok, ensure_eq_ok]

theorem get?_deleteBackup (stopped : Option (List Bytes))
    (h : checkDelete repo backupId = .ok () → ¬ backupId ++ ascii "/" <+: key) :
    (deleteBackup repo backupId stopped).1.get? key = repo.get? key := by
  unfold deleteBackup
  split
  · rfl
  next hok =>
  have hout : key ∉ objectsOf repo backupId := fun hmem => h hok (mem_objectsOf.mp hmem).2
  cases stopped with
  | none => exact (get?_deleteObjects _ key).trans (if_neg hout)
  | some keys =>
    refine (get?_deleteObjects _ key).trans (if_neg fun hmem => hout ?_)
    exact of_decide_eq_true (mem_filter.mp hmem).2

theorem loadManifest_of_sub
    (hsub : ∀ key bytes, repo'.get? key = some bytes → repo.get? key = some bytes)
    (h : loadManifest repo' backupId = .ok manifest) :
    loadManifest repo backupId = .ok manifest := by
  rw [← h]
  refine (loadManifest_congr ?_).symm
  simp only [loadManifest, bind_eq_ok, getObject_eq_ok] at h
  obtain ⟨body, hbody, -⟩ := h
  rw [hbody, hsub _ _ hbody]

/-! ## Restores -/

variable [Hashes]

theorem manifestGeneration_congr
    (h : ∀ key ∈ manifest.files, ascii "/" ++ generationObject <:+ key →
      repo'.get? key = repo.get? key) :
    manifestGeneration repo' manifest = manifestGeneration repo manifest := by
  unfold manifestGeneration
  split
  · rfl
  next key hfilter =>
    have hmem : key ∈ manifest.files.filter (ascii "/" ++ generationObject).isSuffixOf := by
      rw [hfilter]
      exact mem_singleton.mpr rfl
    rw [mem_filter, isSuffixOf_iff_suffix] at hmem
    rw [getObject_congr (h key hmem.1 hmem.2)]
  · rfl

/-- What a successful check of a backup says. -/
structure Checked (repo : BackupRepository) (backupId : Bytes) (manifest : BackupManifest)
    (parent : Option Bytes) : Prop where
  load : BackupOrchestrator.loadManifest repo backupId = .ok manifest
  status : manifest.status = .completed
  files : verifyManifestFiles repo manifest = .ok ()
  generation : ∃ generation, manifestGeneration repo manifest = .ok generation
  chain : (manifest.backupType = .full ∧ parent = none) ∨
    (manifest.backupType = .incremental ∧ ∃ id parentManifest, parent = some id ∧
      manifest.parentBackupId = some id ∧
      BackupOrchestrator.loadManifest repo id = .ok parentManifest ∧
      validateChainGeneration repo parentManifest manifest = .ok ())

theorem checkChain_eq_ok :
    checkChain repo backupId = .ok (manifest, parent) ↔ Checked repo backupId manifest parent := by
  simp only [checkChain, verify, bind_eq_ok, ensure_eq_ok, pure_eq_ok]
  constructor
  · rintro ⟨-, ⟨m', hload', -, hstatus, ⟨⟩, hfiles, generation, hgen, -⟩, m, hload, h⟩
    have hsame : m' = m := Except.ok.inj (hload'.symm.trans hload)
    subst hsame
    cases htype : m'.backupType with
    | full =>
      simp only [htype, pure_eq_ok] at h
      cases h
      exact ⟨hload, hstatus, hfiles, ⟨generation, hgen⟩, .inl ⟨htype, rfl⟩⟩
    | incremental =>
      simp only [htype, bind_eq_ok, required_eq_ok, pure_eq_ok] at h
      obtain ⟨id, hparent, parentManifest, hloadParent, ⟨⟩, hvalid, h⟩ := h
      cases h
      exact ⟨hload, hstatus, hfiles, ⟨generation, hgen⟩,
        .inr ⟨htype, id, parentManifest, rfl, hparent, hloadParent, hvalid⟩⟩
  · rintro ⟨hload, hstatus, hfiles, ⟨generation, hgen⟩, hchain⟩
    refine ⟨(), ⟨manifest, hload, (), hstatus, (), hfiles, generation, hgen, trivial⟩, manifest,
      hload, ?_⟩
    rcases hchain with ⟨htype, rfl⟩ | ⟨htype, id, parentManifest, rfl, hparent, hload', hvalid⟩
    · simp only [htype, pure_eq_ok]
    simp only [htype, bind_eq_ok, required_eq_ok, pure_eq_ok]
    exact ⟨id, hparent, parentManifest, hload', (), hvalid, rfl⟩

theorem Checked.congr (h : Checked repo backupId manifest parent)
    (hagree : ∀ id, InChain repo backupId id → Agree repo repo' id) :
    Checked repo' backupId manifest parent := by
  have hself := hagree backupId .self
  have hfiles := hself.files h.load
  have hsame : manifestGeneration repo' manifest = manifestGeneration repo manifest :=
    manifestGeneration_congr fun key hkey _ => hfiles key hkey
  refine ⟨by rw [hself.loadManifest, h.load], h.status,
    by rw [verifyManifestFiles_congr hfiles, h.files], ?_, ?_⟩
  · obtain ⟨generation, hgen⟩ := h.generation
    exact ⟨generation, by rw [hsame, hgen]⟩
  rcases h.chain with hfull | ⟨htype, id, parentManifest, hid, hparent, hload, hvalid⟩
  · exact .inl hfull
  have hparent' := hagree id (.parent .self h.load htype hparent)
  refine .inr ⟨htype, id, parentManifest, hid, hparent,
    by rw [hparent'.loadManifest, hload], ?_⟩
  rw [validateChainGeneration, hsame,
    manifestGeneration_congr fun key hkey _ => hparent'.files hload key hkey]
  exact hvalid

theorem restore_eq_ok :
    restore repo (fuel + 1) backupId = some (.ok objects) ↔
      ∃ manifest parent, Checked repo backupId manifest parent ∧
        ∃ own, restoreManifestObjects repo manifest = .ok own ∧
          ((parent = none ∧ objects = own) ∨
            ∃ id inherited, parent = some id ∧ restore repo fuel id = some (.ok inherited) ∧
              objects = inherited ++ own) := by
  rw [restore]
  constructor
  · intro h
    split at h
    · cases h
    next manifest hcheck =>
      exact ⟨manifest, none, checkChain_eq_ok.mp hcheck, objects, Option.some.inj h,
        .inl ⟨rfl, rfl⟩⟩
    next manifest parent hcheck =>
    obtain ⟨result, hresult, h⟩ := Option.map_eq_some_iff.mp h
    simp only [bind_eq_ok, pure_eq_ok] at h
    obtain ⟨inherited, rfl, own, hown, rfl⟩ := h
    exact ⟨manifest, some parent, checkChain_eq_ok.mp hcheck, own, hown,
      .inr ⟨parent, inherited, rfl, hresult, rfl⟩⟩
  · rintro ⟨manifest, parent, hcheck, own, hown, ⟨rfl, rfl⟩ | ⟨id, inherited, rfl, hrestore, rfl⟩⟩
    · rw [checkChain_eq_ok.mpr hcheck]
      exact congrArg some hown
    · rw [checkChain_eq_ok.mpr hcheck]
      simp only [hrestore, Option.map_some, hown]
      rfl

theorem restore_congr (h : restore repo fuel backupId = some (.ok objects))
    (hagree : ∀ id, InChain repo backupId id → Agree repo repo' id) :
    restore repo' fuel backupId = some (.ok objects) := by
  induction fuel generalizing backupId objects with
  | zero => cases h
  | succ fuel ih =>
    obtain ⟨manifest, parent, hcheck, own, hown, hrest⟩ := restore_eq_ok.mp h
    refine restore_eq_ok.mpr ⟨manifest, parent, hcheck.congr hagree, own, ?_, ?_⟩
    · rw [restoreManifestObjects_congr ((hagree backupId .self).files hcheck.load), hown]
    rcases hrest with hnone | ⟨id, inherited, rfl, hrestore, hobjects⟩
    · exact .inl hnone
    refine .inr ⟨id, inherited, rfl, ih hrestore fun a ha => hagree a ?_, hobjects⟩
    rcases hcheck.chain with ⟨-, hnone⟩ | ⟨htype, p, _, hid, hparent, -, -⟩
    · cases hnone
    cases hid
    exact InChain.trans (.parent .self hcheck.load htype hparent) ha

theorem restores_of_inChain (h : ∃ objects, Restores repo backupId objects)
    (hchain : InChain repo backupId id) : ∃ objects, Restores repo id objects := by
  induction hchain with
  | self => exact h
  | parent _ hload htype hparent ih =>
    obtain ⟨objects, fuel, hrestore⟩ := ih
    cases fuel with
    | zero => cases hrestore
    | succ fuel =>
      obtain ⟨manifest, parent, hcheck, own, -, hrest⟩ := restore_eq_ok.mp hrestore
      have hsame := Except.ok.inj (hload.symm.trans hcheck.load)
      subst hsame
      rcases hcheck.chain with ⟨hfull, -⟩ | ⟨-, p, _, hp, hparent', -, -⟩
      · rw [htype] at hfull
        cases hfull
      subst hp
      rw [hparent] at hparent'
      cases hparent'
      rcases hrest with ⟨hnone, -⟩ | ⟨id', inherited, hid, hrestore', -⟩
      · cases hnone
      cases hid
      exact ⟨inherited, fuel, hrestore'⟩

theorem checked_of_restores (h : ∃ objects, Restores repo backupId objects) :
    ∃ manifest parent, Checked repo backupId manifest parent := by
  obtain ⟨objects, fuel, hrestore⟩ := h
  cases fuel with
  | zero => cases hrestore
  | succ fuel =>
    obtain ⟨manifest, parent, hcheck, -⟩ := restore_eq_ok.mp hrestore
    exact ⟨manifest, parent, hcheck⟩

theorem Checked.exists_own (h : Checked repo backupId manifest parent)
    (hkey : key ∈ ownKeys repo backupId) : repo.get? key ≠ none := by
  rw [ownKeys, h.load] at hkey
  rcases mem_cons.mp hkey with rfl | hkey
  · have hload := h.load
    simp only [BackupOrchestrator.loadManifest, bind_eq_ok, getObject_eq_ok] at hload
    obtain ⟨body, hbody, -⟩ := hload
    rw [hbody]
    nofun
  have hfiles := h.files
  rw [verifyManifestFiles, forM_eq_ok] at hfiles
  have hfile := hfiles key hkey
  simp only [bind_eq_ok, getObject_eq_ok] at hfile
  obtain ⟨body, hbody, -⟩ := hfile
  rw [hbody]
  nofun

theorem mem_completed
    (h : Checked repo backupId manifest parent) : manifest ∈ (scanManifests repo).completed := by
  have hkey : repo.get? (manifestKey backupId) ≠ none :=
    h.exists_own (manifestKey_mem_ownKeys backupId)
  obtain ⟨scan, hc, -⟩ := scan_of_mem hkey
  refine hc ?_
  have hstrip : stripSuffix manifestSuffix (manifestKey backupId) = some backupId :=
    stripSuffix_eq_some.mpr rfl
  have hpresent : manifestFilesPresent repo manifest = true := by
    refine all_eq_true.mpr fun key hkey => ?_
    exact Option.isSome_iff_ne_none.mpr (h.exists_own (mem_ownKeys_of_mem_files h.load hkey))
  unfold scanKey
  simp only [hstrip, h.load, h.status, hpresent, ne_eq, not_true_eq_false, if_false, if_true]
  exact mem_append_right _ (mem_singleton.mpr rfl)

/-- A deletion that is not refused is of no ancestor of a backup that can be
restored: the parent of each of its ancestors was looked at. -/
theorem not_inChain_of_checkDelete {other : Bytes}
    (hcheck : checkDelete repo backupId = .ok ()) (hne : other ≠ backupId)
    (hrestores : ∃ objects, Restores repo other objects) : ¬ InChain repo other backupId := by
  intro hchain
  cases hchain with
  | self => exact hne rfl
  | parent hchain hload _ hparent =>
    obtain ⟨manifest, parent, hchecked⟩ :=
      checked_of_restores (restores_of_inChain hrestores hchain)
    have hsame := Except.ok.inj (hload.symm.trans hchecked.load)
    subst hsame
    exact (checkDelete_eq_ok.mp hcheck).2 _ (mem_completed hchecked) hparent

section

variable (hsub : ∀ key bytes, repo'.get? key = some bytes → repo.get? key = some bytes)
include hsub

theorem inChain_of_sub (hrestores : ∃ objects, Restores repo' backupId objects)
    (h : InChain repo backupId id) : InChain repo' backupId id := by
  induction h with
  | self => exact .self
  | parent _ hload htype hparent ih =>
    obtain ⟨manifest, parent, hchecked⟩ := checked_of_restores (restores_of_inChain hrestores ih)
    have hsame := Except.ok.inj (hload.symm.trans (loadManifest_of_sub hsub hchecked.load))
    subst hsame
    exact .parent ih hchecked.load htype hparent

theorem exists_of_restores (hrestores : ∃ objects, Restores repo' backupId objects)
    (h : InChain repo backupId id) (hkey : key ∈ ownKeys repo id) : repo'.get? key ≠ none := by
  obtain ⟨manifest, parent, hchecked⟩ :=
    checked_of_restores (restores_of_inChain hrestores (inChain_of_sub hsub hrestores h))
  refine hchecked.exists_own ?_
  rw [ownKeys, hchecked.load]
  rwa [ownKeys, loadManifest_of_sub hsub hchecked.load] at hkey

end

/-- The objects of the backups that can be restored, other than this one, are not
under its id. -/
def Apart (repo : BackupRepository) (backupId : Bytes) : Prop :=
  ∀ other, other ≠ backupId → (∃ objects, Restores repo other objects) →
    ∀ id, InChain repo other id → id ≠ backupId →
      ∀ key ∈ ownKeys repo id, ¬ backupId ++ ascii "/" <+: key

/-- A deletion, complete or interrupted, keeps every other restore and its objects,
exactly when it is refused or no object that one of those restores reads is under the
deleted id. While a manifest is unreadable, nothing may be reclaimed. -/
theorem delete_keeps_others_iff (repo : BackupRepository) (backupId : Bytes) :
    ((∀ stopped other objects, other ≠ backupId → Restores repo other objects →
        Restores (deleteBackup repo backupId stopped).1 other objects) ↔
      (checkDelete repo backupId = .ok () → Apart repo backupId)) ∧
    ∀ repo' : BackupRepository, (∃ id, Unreadable repo' id) →
      protectedGcWatermark repo' = some 0 ∧ walCleanupAllowed repo' = false ∧
        ∀ filename, walSegmentCleanupAllowed repo' filename = .ok false := by
  refine ⟨⟨fun h hcheck other hne hrestores id hchain _ key hkey hunder => ?_,
    fun h stopped other objects hne hrestores => ?_⟩, ?_⟩
  · obtain ⟨objects, hobjects⟩ := hrestores
    have hafter := h none other objects hne hobjects
    have hdelete : (deleteBackup repo backupId none).1 =
        repo.deleteObjects (objectsOf repo backupId) := by
      rw [deleteBackup, hcheck]
    rw [hdelete] at hafter
    have hsub : ∀ key bytes, (repo.deleteObjects (objectsOf repo backupId)).get? key = some bytes →
        repo.get? key = some bytes := by
      intro key bytes hget
      rw [get?_deleteObjects] at hget
      split at hget
      · cases hget
      · exact hget
    have hthere := exists_of_restores hsub ⟨objects, hafter⟩ hchain hkey
    rw [get?_deleteObjects] at hthere
    split at hthere
    · exact hthere rfl
    next hout => exact hout (mem_objectsOf.mpr ⟨hthere, hunder⟩)
  · obtain ⟨fuel, hrestore⟩ := hrestores
    refine ⟨fuel, restore_congr hrestore fun id hchain key hkey => ?_⟩
    refine get?_deleteBackup stopped fun hcheck => ?_
    have hrestores : ∃ objects, Restores repo other objects := ⟨objects, fuel, hrestore⟩
    refine h hcheck other hne hrestores id hchain ?_ key hkey
    rintro rfl
    exact not_inChain_of_checkDelete hcheck hne hrestores hchain
  · rintro repo' ⟨id, hunreadable⟩
    have hne := unreadable_ne_nil hunreadable
    refine ⟨?_, ?_, fun filename => ?_⟩
    · simp only [protectedGcWatermark, if_pos hne]
    · rw [walCleanupAllowed, Bool.and_eq_false_iff]
      exact .inr (isEmpty_eq_false_iff.mpr hne)
    · simp only [walSegmentCleanupAllowed, if_pos hne]
      rfl

end Reads

/-! ## Ids with a slash -/

end NodusDb.BackupOrchestrator

namespace NodusDb.Fixed

/-- Texts that keep the id and the status of a manifest, which is all that two full
backups without objects differ in. -/
scoped instance backupCodec : BackupCodec where
  manifestText manifest := (if manifest.status = .completed then 1 else 0) :: manifest.backupId
  parseManifest
    | [] => none
    | status :: backupId => some
      { manifestVersion := 2
        objectFormatVersion := 1
        backupId := backupId
        clusterId := ascii "c"
        timelineId := defaultTimelineId
        backupType := .full
        parentBackupId := none
        snapshotTs := 10
        files := []
        checksums := .empty
        protectedTimestamp := some ⟨ascii "backup-" ++ backupId, 0, 10⟩
        status := if status = 1 then .completed else .verifying }
  generationText _ := []
  parseGeneration _ := none
  indexText _ := []
  parseIndex _ := none

end NodusDb.Fixed

namespace NodusDb.BackupOrchestrator

open Fixed

def emptyFull (backupId : String) : Call :=
  .createFull none ⟨ascii backupId, ascii "c", 10, 1, []⟩

/-- Two backups are made, `a` and `a/b`. Deleting `a` is not refused, and `a/b`, which
could be restored, no longer can. -/
theorem delete_breaks_nested_id :
    ∃ repo, Run Step .empty [emptyFull "a", emptyFull "a/b"] repo ∧
      Restores repo (ascii "a/b") [] ∧ (deleteBackup repo (ascii "a") none).2 = .ok () ∧
      ¬ ∃ objects, Restores (deleteBackup repo (ascii "a") none).1 (ascii "a/b") objects := by
  refine ⟨call (call .empty (emptyFull "a")) (emptyFull "a/b"), ?_, ⟨1, by decide +kernel⟩,
    by decide +kernel, ?_⟩
  · exact .snoc (.snoc (.nil _) rfl) rfl
  intro hrestores
  obtain ⟨manifest, parent, hchecked⟩ := checked_of_restores hrestores
  have hgone : loadManifest (deleteBackup (call (call .empty (emptyFull "a")) (emptyFull "a/b"))
      (ascii "a") none).1 (ascii "a/b") = .error "Object not found" := by
    decide +kernel
  rw [hchecked.load] at hgone
  cases hgone

end NodusDb.BackupOrchestrator
