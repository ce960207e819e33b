import NodusDb.Backup.Deletion
import NodusDb.Backup.Plan

/-!
# Holes in the archive

An archive may hold any part of the source's segments. A hole between the first and the last segment
that the indexes show to be needed makes the plan fail; one before or after them goes unnoticed.

* `plan_covers_iff`: a plan covers its window exactly when no needed segment is missing at an end.
* `plan_hides_first_segment`: a plan without the segment a transaction wrote in.
-/

namespace NodusDb

open Result List

namespace Lsm.WalRecord

def commits : WalRecord → List WalCommittedTxn
  | commitTxn txnId commitTs => [⟨txnId, commitTs⟩]
  | commitTxnBatchV1 commits => commits.map fun c => ⟨c.1, c.2⟩
  | _ => []

/-- The transaction that writes in a record. -/
def writer : WalRecord → Option Uuid
  | writeIntent txnId _ _ _ | deleteIntent txnId _ _ => some txnId
  | _ => none

end Lsm.WalRecord

theorem committedTxns_foldl (records : List Lsm.WalRecord) (index : TxnIndex) :
    (records.foldl indexRecord index).committedTxns =
      index.committedTxns ++ records.flatMap Lsm.WalRecord.commits := by
  induction records generalizing index with
  | nil => simp
  | cons r records ih =>
    rw [foldl_cons, ih, flatMap_cons, ← append_assoc]
    congr 1
    cases r <;> simp [indexRecord, Lsm.WalRecord.commits]

theorem mem_recordTxnIds_foldl {records : List Lsm.WalRecord} (index : TxnIndex) {txnId : Uuid}
    (h : txnId ∈ index.recordTxnIds ∨ ∃ r ∈ records, r.writer = some txnId) :
    txnId ∈ (records.foldl indexRecord index).recordTxnIds := by
  induction records generalizing index with
  | nil => simpa using h
  | cons r records ih =>
    refine ih (indexRecord index r) ?_
    rcases h with h | ⟨r', hr', hwriter⟩
    · left
      cases r with
      | beginTxn | writeIntent | deleteIntent => exact mem_append_left _ h
      | _ => exact h
    rcases mem_cons.mp hr' with rfl | hr'
    · left
      cases r' with
      | writeIntent | deleteIntent =>
        exact mem_append_right _ (mem_singleton.mpr (Option.some.inj hwriter).symm)
      | _ => cases hwriter
    · exact .inr ⟨r', hr', hwriter⟩

namespace BackupOrchestrator

/-! ## The source -/

/-- A sealed segment of the source: its number, its bytes and the records in them. -/
structure SourceSegment [WalReader] where
  id : Nat
  bytes : Bytes
  records : List Lsm.WalRecord
  recovered : WalReader.recover bytes = .ok records

namespace SourceSegment

variable [WalReader]

def filename (s : SourceSegment) : Bytes := jsonNumber s.id ++ ascii ".log"

def Commits (s : SourceSegment) (c : WalCommittedTxn) : Prop := ∃ r ∈ s.records, c ∈ r.commits

def Writes (s : SourceSegment) (txnId : Uuid) : Prop := ∃ r ∈ s.records, r.writer = some txnId

/-- The index the archiver publishes for a segment. -/
def index [Hashes] (s : SourceSegment) : WalArchiveIndex :=
  archiveIndex s.filename s.bytes (txnIndexOf s.records)

variable {s : SourceSegment}

theorem mem_committedTxns [Hashes] :
    c ∈ s.index.committedTxns ↔ s.Commits c := by
  have hfold : (txnIndexOf s.records).committedTxns = s.records.flatMap Lsm.WalRecord.commits := by
    rw [txnIndexOf, committedTxns_foldl]
    exact nil_append _
  rw [index, archiveIndex, mem_dedupAdjacent, mem_insertionSort, hfold, mem_flatMap]
  rfl

theorem mem_recordTxnIds [Hashes] {txnId : Uuid} (h : s.Writes txnId) :
    txnId ∈ s.index.recordTxnIds := by
  rw [index, archiveIndex, mem_dedupAdjacent, mem_insertionSort, txnIndexOf]
  exact mem_recordTxnIds_foldl _ (.inr h)

theorem sequence_filename {sequence : Nat}
    (h : walSegmentSequence s.filename = .ok sequence) : sequence = s.id := by
  have hstrip : stripSuffix (ascii ".log") s.filename = some (jsonNumber s.id) :=
    stripSuffix_eq_some.mpr rfl
  have hplus : stripStart (ascii "+") (jsonNumber s.id) = jsonNumber s.id := by
    have hdigits := parseDigits_jsonNumber s.id
    unfold stripStart
    split
    next hstart =>
      -- A number that can be read back does not start with a plus sign.
      obtain ⟨rest, hrest⟩ := isPrefixOf_iff_prefix.mp hstart
      rw [← hrest, parseDigits] at hdigits
      split at hdigits
      next hall =>
        have hplus := hall.2 43 (mem_append_left _ (by decide))
        exact absurd hplus.1 (by decide)
      · cases hdigits
    · rfl
  rw [walSegmentSequence, hstrip, required_eq_ok] at h
  have hparse : parseU64 (jsonNumber s.id) = some sequence := h
  rw [parseU64, hplus, parseDigits_jsonNumber, Option.filter_eq_some_iff] at hparse
  exact (Option.some.inj hparse.1).symm

end SourceSegment

/-! ## The walk over the indexes -/

variable {index : WalArchiveIndex} {indexes : List WalArchiveIndex} {timelineId : Bytes}
  {usable : List (Nat × WalArchiveIndex)} {walFloor target : Nat} {repo : BackupRepository}
  {base : BackupManifest} {source : Option (Option RecoveryGeneration)} {plan : PitrRestorePlan}

theorem mem_usableIndexes (h : usableIndexes walFloor timelineId indexes = .ok usable) :
    e ∈ usable ↔ e.2 ∈ indexes ∧ walSegmentSequence e.2.segmentId = .ok e.1 ∧ walFloor ≤ e.1 ∧
      e.2.timelineId = timelineId := by
  induction indexes generalizing usable with
  | nil =>
    cases h
    simp
  | cons index indexes ih =>
    simp only [usableIndexes, bind_eq_ok, ensure_eq_ok, pure_eq_ok] at h
    obtain ⟨-, -, sequence, hsequence, rest, hrest, rfl⟩ := h
    obtain ⟨q, i⟩ := e
    split
    next hok =>
      rw [mem_cons, ih hrest, mem_cons]
      constructor
      · rintro (hhead | htail)
        · cases hhead
          exact ⟨.inl rfl, hsequence, hok.1, hok.2⟩
        · exact ⟨.inr htail.1, htail.2⟩
      · rintro ⟨rfl | hmem, hq, hfloor, htimeline⟩
        · rw [hsequence] at hq
          cases hq
          exact .inl rfl
        · exact .inr ⟨hmem, hq, hfloor, htimeline⟩
    next hnot =>
      rw [ih hrest, mem_cons]
      constructor
      · rintro ⟨hmem, hrest⟩
        exact ⟨.inr hmem, hrest⟩
      · rintro ⟨rfl | hmem, hq, hfloor, htimeline⟩
        · rw [hsequence] at hq
          cases hq
          exact absurd ⟨hfloor, htimeline⟩ hnot
        · exact ⟨hmem, hq, hfloor, htimeline⟩

theorem sequence_of_usableIndexes (h : usableIndexes walFloor timelineId indexes = .ok usable)
    (hmem : index ∈ indexes) : ∃ sequence, walSegmentSequence index.segmentId = .ok sequence := by
  induction indexes generalizing usable with
  | nil => cases hmem
  | cons i indexes ih =>
    simp only [usableIndexes, bind_eq_ok] at h
    obtain ⟨_, -, sequence, hsequence, rest, hrest, -⟩ := h
    rcases mem_cons.mp hmem with rfl | hmem
    · exact ⟨sequence, hsequence⟩
    · exact ih hrest hmem

theorem get?_indexesBySequence
    {bySequence : OrdMap Nat WalArchiveIndex} (h : indexesBySequence usable = .ok bySequence)
    {sequence : Nat} : bySequence.get? sequence = some index ↔ (sequence, index) ∈ usable := by
  -- Each entry goes to a place of its own, besides what was there before.
  have hfold : ∀ (usable : List (Nat × WalArchiveIndex))
      (start result : OrdMap Nat WalArchiveIndex),
      usable.foldlM
        (fun bySequence e => do
          ensure (bySequence.get? e.1 = none) "duplicate WAL archive index"
          pure (bySequence.insert e.1 e.2)) start = (.ok result : Result _) →
      (result.get? sequence = some index ↔
        start.get? sequence = some index ∨ (sequence, index) ∈ usable) := by
    intro usable
    induction usable with
    | nil =>
      intro start result h
      cases h
      simp
    | cons e usable ih =>
      intro start result h
      simp only [foldlM_cons, bind_eq_ok, ensure_eq_ok, pure_eq_ok] at h
      obtain ⟨next, ⟨_, hfresh, rfl⟩, h⟩ := h
      rw [ih _ _ h, OrdMap.get?_insert, mem_cons]
      split
      next heq =>
        rw [heq, hfresh]
        obtain ⟨q, i⟩ := e
        simp only [Option.some.injEq, Prod.mk.injEq, true_and, reduceCtorEq, false_or]
        exact or_congr_left eq_comm
      next hne =>
        have : (sequence, index) ≠ e := fun h => hne (congrArg Prod.fst h)
        simp [this]
  rw [hfold usable .empty bySequence h, OrdMap.get?_empty]
  simp

section Walk

variable {first current : Nat} {bySequence selected result : OrdMap Nat WalArchiveIndex}

section

variable (h : walkLineage first current bySequence selected = .ok result)
include h

theorem walkLineage_cases :
    ∃ index, bySequence.get? current = some index ∧
      (((current = first ∨ ∀ p, index.predecessor = some p → p < first) ∧
          result = selected.insert current index) ∨
        ∃ p, index.predecessor = some p ∧ (bySequence.erase current).size < bySequence.size ∧
          walkLineage first p (bySequence.erase current) (selected.insert current index) =
            .ok result) := by
  rw [walkLineage] at h
  split at h
  · cases h
  next index hindex =>
  refine ⟨index, hindex, ?_⟩
  have hsmaller := OrdMap.size_erase_lt (Option.ne_none_iff_exists'.mpr ⟨index, hindex⟩)
  split at h
  next hfirst => exact .inl ⟨.inl hfirst, (Except.ok.inj h).symm⟩
  split at h
  next p hp =>
    split at h
    · exact .inr ⟨p, hp, hsmaller, h⟩
    next hlt =>
    refine .inl ⟨.inr fun p' hp' => ?_, (Except.ok.inj h).symm⟩
    rw [hp] at hp'
    cases hp'
    exact not_le.mp hlt
  next hnone =>
    refine .inl ⟨.inr fun p hp => ?_, (Except.ok.inj h).symm⟩
    rw [hnone] at hp
    cases hp

theorem walkLineage_sub {sequence : Nat} {index : WalArchiveIndex}
    (hget : result.get? sequence = some index) :
    selected.get? sequence = some index ∨ bySequence.get? sequence = some index := by
  induction hn : bySequence.size using Nat.strong_induction_on
    generalizing current bySequence selected with
  | _ n ih =>
    subst hn
    obtain ⟨i, hi, hcase⟩ := walkLineage_cases h
    have hinsert : (selected.insert current i).get? sequence = some index →
        selected.get? sequence = some index ∨ bySequence.get? sequence = some index := by
      intro hget
      rw [OrdMap.get?_insert] at hget
      split at hget
      next heq => exact .inr (by rw [heq, hi, hget])
      · exact .inl hget
    rcases hcase with ⟨-, rfl⟩ | ⟨p, -, hsmaller, h⟩
    · exact hinsert hget
    rcases ih _ hsmaller h rfl with hselected | hrest
    · exact hinsert hselected
    rw [OrdMap.get?_erase] at hrest
    split at hrest
    · cases hrest
    · exact .inr hrest

theorem walkLineage_mono {sequence : Nat} (hget : selected.get? sequence ≠ none) :
    result.get? sequence ≠ none := by
  induction hn : bySequence.size using Nat.strong_induction_on
    generalizing current bySequence selected with
  | _ n ih =>
    subst hn
    obtain ⟨i, hi, hcase⟩ := walkLineage_cases h
    have hinsert : (selected.insert current i).get? sequence ≠ none := by
      rw [OrdMap.get?_insert]
      split
      · nofun
      · exact hget
    rcases hcase with ⟨-, rfl⟩ | ⟨p, -, hsmaller, h⟩
    · exact hinsert
    · exact ih _ hsmaller h hinsert rfl

end

end Walk

section Repository

variable [BackupCodec]

theorem get?_syncRecoveryGeneration (h : key ≠ repositoryGeneration) :
    (syncRecoveryGeneration repo source).1.get? key = repo.get? key := by
  unfold syncRecoveryGeneration
  split
  · rfl
  split
  · rfl
  split
  · rfl
  split
  · split
    · exact OrdMap.get?_insert_of_ne h
    · rfl
  · rfl

variable [Hashes]

/-- The floor of the generation a base belongs to. -/
def planFloor (repo : BackupRepository) (base : BackupManifest) : Nat :=
  match manifestGeneration repo base with
  | .ok (some generation) => generation.walFloor
  | _ => 0

/-- The repository after the check of the generation has the same objects, apart from
the generation's own. -/
theorem get?_validatePitrGeneration (h : key ≠ repositoryGeneration) :
    (validatePitrGeneration repo source base target).1.get? key = repo.get? key := by
  unfold validatePitrGeneration
  split
  · rfl
  · exact get?_syncRecoveryGeneration h

theorem planFloor_congr
    (hsame : ∀ key, key ≠ repositoryGeneration → repo'.get? key = repo.get? key) :
    planFloor repo' base = planFloor repo base := by
  rw [planFloor, manifestGeneration_congr fun key _ hsuffix => hsame key ?_, planFloor]
  rintro rfl
  revert hsuffix
  decide

theorem plans_of_run
    (h : (planPitrRestore repo fuel source target).2.bind Except.toOption = some plan) :
    Plans repo source target plan := by
  obtain ⟨result, hresult, hok⟩ := Option.bind_eq_some_iff.mp h
  cases result with
  | error e => cases hok
  | ok plan' =>
    cases hok
    exact ⟨fuel, hresult⟩

theorem walSegments_of_plans (hbase : baseFor repo target = .ok base)
    (h : Plans repo source target plan) :
    (target = base.snapshotTs ∧ plan.walSegments = []) ∨
      planWalSegments (validatePitrGeneration repo source base target).1 base target =
        .ok plan.walSegments := by
  obtain ⟨fuel, h⟩ := h
  unfold planPitrRestore at h
  split at h
  · cases h
  next base' hbase' =>
  simp only [bind_eq_ok, pure_eq_ok] at hbase'
  obtain ⟨b, hb, -, -, rfl⟩ := hbase'
  cases hbase.symm.trans hb
  split at h
  · cases h
  next repo' hvalidate =>
  rw [hvalidate]
  obtain ⟨chain, -, h⟩ := Option.map_eq_some_iff.mp h
  rw [bind_eq_ok] at h
  obtain ⟨_, -, h⟩ := h
  split at h
  next htarget =>
    cases h
    exact .inl ⟨htarget, rfl⟩
  · simp only [bind_eq_ok, pure_eq_ok] at h
    obtain ⟨segments, hsegments, rfl⟩ := h
    exact .inr hsegments

end Repository

section Archive

variable [WalReader]

def Chained (history : List SourceSegment) : Prop :=
  history.IsChain fun a b => a.id < b.id ∧ (txnIndexOf b.records).predecessor = some a.id

variable {history archived : List SourceSegment}

theorem Chained.pairwise (h : Chained history) : history.Pairwise fun a b => a.id < b.id := by
  refine isChain_iff_pairwise.mp (h.imp fun _ _ hab => hab.1)

theorem Chained.eq_of_id (h : Chained history) (ha : a ∈ history) (hb : b ∈ history)
    (hid : a.id = b.id) : a = b := by
  have hp := h.pairwise
  clear h
  induction history with
  | nil => cases ha
  | cons c history ih =>
    obtain ⟨hlt, hrest⟩ := pairwise_cons.mp hp
    rcases mem_cons.mp ha with rfl | ha' <;> rcases mem_cons.mp hb with rfl | hb'
    · rfl
    · exact absurd hid (hlt b hb').ne
    · exact absurd hid.symm (hlt a ha').ne
    · exact ih ha' hb' hrest

theorem Chained.predecessor (h : Chained history) (ha : a ∈ history) (hc : c ∈ history)
    (hlt : a.id < c.id) :
    ∃ p ∈ history, (txnIndexOf c.records).predecessor = some p.id ∧ a.id ≤ p.id := by
  have hpairwise := h.pairwise
  obtain ⟨before, after, rfl⟩ := append_of_mem hc
  obtain ⟨hbefore, hafter, hsplit⟩ := pairwise_append.mp hpairwise
  have ha' : a ∈ before := by
    rcases mem_append.mp ha with ha | ha
    · exact ha
    rcases mem_cons.mp ha with rfl | ha
    · exact absurd hlt (lt_irrefl _)
    · exact absurd ((pairwise_cons.mp hafter).1 a ha) hlt.asymm
  -- The last of the segments before `c` is the one it names.
  rcases eq_nil_or_concat before with rfl | ⟨earlier, p, rfl⟩
  · cases ha'
  rw [concat_eq_append] at h ha' hbefore
  obtain ⟨-, -, hlink⟩ := isChain_append.mp h
  have hstep := hlink p (by simp) c (by simp)
  refine ⟨p, by simp, hstep.2, ?_⟩
  rcases mem_append.mp ha' with ha' | ha'
  · exact ((pairwise_append.mp hbefore).2.2 a ha' p (by simp)).le
  · rw [mem_singleton.mp ha']

theorem filename_inj {s u : SourceSegment} (h : s.filename = u.filename) : s.id = u.id := by
  have hnumber : jsonNumber s.id = jsonNumber u.id := append_cancel_right h
  have hparsed := congrArg parseDigits hnumber
  rw [parseDigits_jsonNumber, parseDigits_jsonNumber] at hparsed
  exact Option.some.inj hparsed

variable [Hashes]

theorem walkLineage_covers (hchain : Chained history) {first current : Nat}
    {bySequence selected result : OrdMap Nat WalArchiveIndex}
    (hsource : ∀ sequence index, bySequence.get? sequence = some index →
      ∃ s ∈ history, s.id = sequence ∧ s.index = index)
    (h : walkLineage first current bySequence selected = .ok result) {s : SourceSegment}
    (hs : s ∈ history) (hfirst : first ≤ s.id) (hcurrent : s.id ≤ current) :
    result.get? s.id ≠ none := by
  induction hn : bySequence.size using Nat.strong_induction_on
    generalizing current bySequence selected with
  | _ n ih =>
    subst hn
    obtain ⟨i, hi, hcase⟩ := walkLineage_cases h
    obtain ⟨c, hc, rfl, rfl⟩ := hsource _ _ hi
    rcases hcurrent.lt_or_eq with hlt | heq
    · -- `c` follows a segment that is not before `s`, so the walk goes on there.
      obtain ⟨p, hp, hpred, hle⟩ := hchain.predecessor hs hc hlt
      rcases hcase with ⟨hstop, -⟩ | ⟨p', hp', hsmaller, h⟩
      · rcases hstop with rfl | hstop
        · exact absurd hlt (not_lt.mpr hfirst)
        · exact absurd (hfirst.trans hle) (not_le.mpr (hstop p.id hpred))
      cases hpred.symm.trans hp'
      refine ih _ hsmaller (fun q j hq => hsource q j ?_) h hle rfl
      rw [OrdMap.get?_erase] at hq
      split at hq
      · cases hq
      · exact hq
    · have htaken : (selected.insert c.id c.index).get? s.id ≠ none := by
        rw [heq, OrdMap.get?_insert_self]
        nofun
      rcases hcase with ⟨-, rfl⟩ | ⟨p, -, -, h⟩
      · exact htaken
      · exact walkLineage_mono h htaken

/-! ## What a plan selects -/

/-- A segment that the indexes of the usable ones show to be needed. -/
def Detected (usable : SourceSegment → Prop) (base target : Nat) (s : SourceSegment) : Prop :=
  (∃ c, s.Commits c ∧ c.inWindow base target = true) ∨
    ∃ u c, usable u ∧ u.Commits c ∧ c.inWindow base target = true ∧
      c.txnId ∈ s.index.recordTxnIds

theorem mem_neededSequences {p : SourceSegment → Prop}
    (husable : ∀ e, e ∈ usable ↔ ∃ s, p s ∧ s.id = e.1 ∧ s.index = e.2) {base sequence : Nat} :
    sequence ∈ neededSequences base target usable ↔
      ∃ s, p s ∧ s.id = sequence ∧ Detected p base target s := by
  have hids : ∀ txnId, txnId ∈ txnIdsNeeded base target usable ↔
      ∃ u c, p u ∧ u.Commits c ∧ c.inWindow base target = true ∧ c.txnId = txnId := by
    intro txnId
    simp only [txnIdsNeeded, mem_map, mem_filter, mem_flatMap, husable]
    constructor
    · rintro ⟨c, ⟨⟨e, ⟨u, hu, -, hindex⟩, hc⟩, hwindow⟩, htxn⟩
      rw [← hindex, SourceSegment.mem_committedTxns] at hc
      exact ⟨u, c, hu, hc, hwindow, htxn⟩
    · rintro ⟨u, c, hu, hc, hwindow, htxn⟩
      exact ⟨c, ⟨⟨(u.id, u.index), ⟨u, hu, rfl, rfl⟩, SourceSegment.mem_committedTxns.mpr hc⟩,
        hwindow⟩, htxn⟩
  have hneeded : ∀ s : SourceSegment,
      isNeeded base target (txnIdsNeeded base target usable) s.index = true ↔
        Detected p base target s := by
    intro s
    simp only [isNeeded, Bool.or_eq_true, any_eq_true, decide_eq_true_eq, hids,
      SourceSegment.mem_committedTxns, Detected]
    refine or_congr_right ?_
    constructor
    · rintro ⟨txnId, hrecord, u, c, hu, hc, hwindow, rfl⟩
      exact ⟨u, c, hu, hc, hwindow, hrecord⟩
    · rintro ⟨u, c, hu, hc, hwindow, hrecord⟩
      exact ⟨c.txnId, hrecord, u, c, hu, hc, hwindow, rfl⟩
  simp only [neededSequences, mem_map, mem_filter, husable]
  constructor
  · rintro ⟨e, ⟨⟨s, hs, hid, hindex⟩, hneed⟩, rfl⟩
    rw [← hindex, hneeded] at hneed
    exact ⟨s, hs, hid, hneed⟩
  · rintro ⟨s, hs, rfl, hdetected⟩
    exact ⟨(s.id, s.index), ⟨⟨s, hs, rfl, rfl⟩, (hneeded s).mpr hdetected⟩, rfl⟩

def Selected (segments : List PitrRestoreWalSegment) (s : SourceSegment) : Prop :=
  ∃ planned ∈ segments, planned.segmentId = s.filename

/-- Only usable segments are selected, and all between two that are detected. -/
structure SelectsBetween (history : List SourceSegment) (usable : SourceSegment → Prop)
    (base target : Nat) (segments : List PitrRestoreWalSegment) : Prop where
  sound : ∀ s ∈ history, Selected segments s → usable s
  between : ∀ a b s, s ∈ history → usable a → Detected usable base target a → usable b →
    Detected usable base target b → a.id ≤ s.id → s.id ≤ b.id → Selected segments s

variable (history archived)

/-- A commit the window asks for, in a segment that is not after the archive. -/
structure Asked (base target : Nat) (s : SourceSegment) (c : WalCommittedTxn) : Prop where
  mem : s ∈ history
  before : ∃ newest ∈ archived, s.id ≤ newest.id
  commits : s.Commits c
  window : c.inWindow base target = true

/-- Every transaction the window asks for has its commit record and its write records
in the selected segments. -/
def Covered (base target : Nat) (segments : List PitrRestoreWalSegment) : Prop :=
  ∀ s c, Asked history archived base target s c →
    Selected segments s ∧ ∀ w ∈ history, w.Writes c.txnId → Selected segments w

/-- A segment with the commit record or a write record of such a transaction. -/
def Needs (base target : Nat) (s : SourceSegment) : Prop :=
  (∃ c, Asked history archived base target s c) ∨
    s ∈ history ∧ ∃ u c, Asked history archived base target u c ∧ s.Writes c.txnId

/-- No needed segment is missing at an end: each can be used, or lies between two
usable ones that are detected. -/
def EndsKept (usable : SourceSegment → Prop) (base target : Nat) : Prop :=
  ∀ s, Needs history archived base target s → usable s ∨
    ∃ a b, usable a ∧ Detected usable base target a ∧ usable b ∧ Detected usable base target b ∧
      a.id ≤ s.id ∧ s.id ≤ b.id

variable {history archived}

/-- A selection of everything between covers the window exactly when no needed segment
is missing at an end. -/
theorem SelectsBetween.covered_iff {usable : SourceSegment → Prop} {base : Nat}
    {segments : List PitrRestoreWalSegment}
    (h : SelectsBetween history usable base target segments) :
    Covered history archived base target segments ↔
      EndsKept history archived usable base target := by
  constructor
  · rintro hcovered s (⟨c, hasked⟩ | ⟨hs, u, c, hasked, hwrites⟩)
    · exact .inl (h.sound s hasked.mem (hcovered s c hasked).1)
    · exact .inl (h.sound s hs ((hcovered u c hasked).2 s hs hwrites))
  · intro hends u c hasked
    -- The commit first: its segment is usable, so it is detected.
    have hcommit : Selected segments u := by
      rcases hends u (.inl ⟨c, hasked⟩) with hu | ⟨a, b, ha, hda, hb, hdb, hle, hle'⟩
      · have hdetected : Detected usable base target u := .inl ⟨c, hasked.commits, hasked.window⟩
        exact h.between u u u hasked.mem hu hdetected hu hdetected le_rfl le_rfl
      · exact h.between a b u hasked.mem ha hda hb hdb hle hle'
    refine ⟨hcommit, fun w hw hwrites => ?_⟩
    rcases hends w (.inr ⟨hw, u, c, hasked, hwrites⟩) with hu | ⟨a, b, ha, hda, hb, hdb, hle, hle'⟩
    · have hdetected : Detected usable base target w :=
        .inr ⟨u, c, h.sound u hasked.mem hcommit, hasked.commits, hasked.window,
          SourceSegment.mem_recordTxnIds hwrites⟩
      exact h.between w w w hw hu hdetected hu hdetected le_rfl le_rfl
    · exact h.between a b w hw ha hda hb hdb hle hle'

/-! ## The archive -/

variable [BackupCodec]

/-- The repository archives these segments of the source: their indexes are there, and
no others. -/
structure Archive (repo : BackupRepository) (history archived : List SourceSegment) : Prop where
  sub : ∀ s ∈ archived, s ∈ history
  keys : ∀ key, repo.get? key ≠ none → ascii "wal_archive/" <+: key → ascii ".index.json" <:+ key →
    ∃ s ∈ archived, key = walIndexKey s.filename
  index : ∀ s ∈ archived, ∃ body, repo.get? (walIndexKey s.filename) = some body ∧
    BackupCodec.parseIndex body = some s.index

theorem mem_loadWalArchiveIndexes (h : Archive repo history archived)
    (hload : loadWalArchiveIndexes repo = .ok indexes) :
    index ∈ indexes ↔ ∃ s ∈ archived, s.index = index := by
  simp only [loadWalArchiveIndexes, bind_eq_ok, pure_eq_ok] at hload
  obtain ⟨loaded, hmap, rfl⟩ := hload
  rw [mem_insertionSort, mem_mapM hmap]
  have hread : ∀ s ∈ archived, ∀ i, (do
      let bytes ← repo.getObject (walIndexKey s.filename)
      required (BackupCodec.parseIndex bytes) "invalid JSON" : Result WalArchiveIndex) = .ok i ↔
      s.index = i := by
    intro s hs i
    obtain ⟨body, hbody, hparse⟩ := h.index s hs
    rw [bind_eq_ok]
    simp only [getObject_eq_ok, required_eq_ok, hbody, Option.some.injEq]
    constructor
    · rintro ⟨body', rfl, hi⟩
      exact Option.some.inj (hparse.symm.trans hi)
    · rintro rfl
      exact ⟨body, rfl, hparse⟩
  constructor
  · rintro ⟨key, hkey, hindex⟩
    rw [mem_filter, BackupRepository.listObjects, mem_filter, OrdMap.mem_keys,
      isPrefixOf_iff_prefix, isSuffixOf_iff_suffix] at hkey
    obtain ⟨s, hs, rfl⟩ := h.keys key hkey.1.1 hkey.1.2 hkey.2
    exact ⟨s, hs, (hread s hs index).mp hindex⟩
  · rintro ⟨s, hs, rfl⟩
    refine ⟨walIndexKey s.filename, ?_, (hread s hs s.index).mpr rfl⟩
    obtain ⟨body, hbody, -⟩ := h.index s hs
    rw [mem_filter, BackupRepository.listObjects, mem_filter, OrdMap.mem_keys,
      isPrefixOf_iff_prefix, isSuffixOf_iff_suffix, walIndexKey]
    refine ⟨⟨?_, ?_⟩, ?_⟩
    · rw [← walIndexKey, hbody]
      exact Option.some_ne_none _
    · rw [append_assoc]
      exact prefix_append _ _
    · exact suffix_append _ _

structure Usable (archived : List SourceSegment) (walFloor : Nat) (timelineId : Bytes)
    (s : SourceSegment) : Prop where
  mem : s ∈ archived
  floor : walFloor ≤ s.id
  timeline : timelineId = defaultTimelineId

theorem mem_usable_iff (h : Archive repo history archived)
    (hload : loadWalArchiveIndexes repo = .ok indexes)
    (husable : usableIndexes walFloor timelineId indexes = .ok usable) {e : Nat × WalArchiveIndex} :
    e ∈ usable ↔ ∃ s, Usable archived walFloor timelineId s ∧ s.id = e.1 ∧ s.index = e.2 := by
  obtain ⟨q, i⟩ := e
  rw [mem_usableIndexes husable, mem_loadWalArchiveIndexes h hload]
  constructor
  · rintro ⟨⟨s, hs, rfl⟩, hsequence, hfloor, htimeline⟩
    have hid := SourceSegment.sequence_filename hsequence
    exact ⟨s, ⟨hs, hid ▸ hfloor, htimeline.symm⟩, hid.symm, rfl⟩
  · rintro ⟨s, hs, rfl, rfl⟩
    refine ⟨⟨s, hs.mem, rfl⟩, ?_, hs.floor, hs.timeline.symm⟩
    have hmem := (mem_loadWalArchiveIndexes h hload).mpr ⟨s, hs.mem, rfl⟩
    obtain ⟨sequence, hsequence⟩ := sequence_of_usableIndexes husable hmem
    have hid : sequence = s.id := SourceSegment.sequence_filename hsequence
    rw [hsequence, hid]

theorem planWalSegments_selects (hchain : Chained history)
    (harchive : Archive repo history archived) {segments : List PitrRestoreWalSegment}
    (h : planWalSegments repo base target = .ok segments) :
    SelectsBetween history (Usable archived (planFloor repo base) base.timelineId) base.snapshotTs
      target segments := by
  simp only [planWalSegments, bind_eq_ok] at h
  obtain ⟨generation, hgeneration, loaded, hloaded, usable, husable, bySequence, hby, h⟩ := h
  have hfloor : planFloor repo base = generation.elim 0 (·.walFloor) := by
    rw [planFloor, hgeneration]
    cases generation <;> rfl
  rw [← hfloor] at husable
  have hmem : ∀ e : Nat × WalArchiveIndex, e ∈ usable ↔ ∃ s, Usable archived (planFloor repo base)
      base.timelineId s ∧ s.id = e.1 ∧ s.index = e.2 :=
    fun e => mem_usable_iff harchive hloaded husable
  have hneeded : ∀ q, q ∈ neededSequences base.snapshotTs target usable ↔ ∃ s,
      Usable archived (planFloor repo base) base.timelineId s ∧ s.id = q ∧
        Detected (Usable archived (planFloor repo base) base.timelineId) base.snapshotTs target s :=
    fun q => mem_neededSequences hmem
  split at h
  next first last hfirst hlast =>
    simp only [bind_eq_ok] at h
    obtain ⟨selected, hwalk, -, -, hmap⟩ := h
    -- A segment taken by the walk is the usable one with its number.
    have htaken : ∀ s ∈ history, ∀ index, selected.get? s.id = some index →
        Usable archived (planFloor repo base) base.timelineId s ∧ s.index = index := by
      intro s hs index hget
      rcases walkLineage_sub hwalk hget with hempty | hget
      · cases hempty
      obtain ⟨u, hu, hid, hindex⟩ := (hmem _).mp ((get?_indexesBySequence hby).mp hget)
      have hsame : u = s := hchain.eq_of_id (harchive.sub u hu.mem) hs hid
      subst hsame
      exact ⟨hu, hindex⟩
    constructor
    · rintro s hs ⟨planned, hplanned, hname⟩
      obtain ⟨index, hindex, hplan⟩ := (mem_mapM hmap).mp hplanned
      obtain ⟨q, hq⟩ := OrdMap.mem_values.mp hindex
      simp only [planSegment, bind_eq_ok, pure_eq_ok] at hplan
      obtain ⟨-, -, -, -, -, -, rfl⟩ := hplan
      rcases walkLineage_sub hwalk hq with hempty | hget
      · cases hempty
      obtain ⟨u, hu, -, rfl⟩ := (hmem _).mp ((get?_indexesBySequence hby).mp hget)
      have hid : u.id = s.id := filename_inj hname
      rwa [← hchain.eq_of_id (harchive.sub u hu.mem) hs hid]
    · intro a b s hs ha hda hb hdb hle hle'
      have hfirst' : first ≤ s.id :=
        ((min?_eq_some_iff.mp hfirst).2 _ ((hneeded a.id).mpr ⟨a, ha, rfl, hda⟩)).trans hle
      have hlast' : s.id ≤ last :=
        hle'.trans ((max?_eq_some_iff.mp hlast).2 _ ((hneeded b.id).mpr ⟨b, hb, rfl, hdb⟩))
      have hsource : ∀ sequence index, bySequence.get? sequence = some index →
          ∃ s ∈ history, s.id = sequence ∧ s.index = index := by
        intro sequence index hget
        obtain ⟨u, hu, hid, hindex⟩ := (hmem _).mp ((get?_indexesBySequence hby).mp hget)
        exact ⟨u, harchive.sub u hu.mem, hid, hindex⟩
      have hget := walkLineage_covers hchain hsource hwalk hs hfirst' hlast'
      obtain ⟨index, hindex⟩ := Option.ne_none_iff_exists'.mp hget
      obtain ⟨-, rfl⟩ := htaken s hs index hindex
      have hvalue : s.index ∈ selected.values := OrdMap.mem_values.mpr ⟨s.id, hindex⟩
      obtain ⟨planned, hplanned⟩ := exists_ok_of_mapM hmap hvalue
      refine ⟨planned, (mem_mapM hmap).mpr ⟨s.index, hvalue, hplanned⟩, ?_⟩
      simp only [planSegment, bind_eq_ok, pure_eq_ok] at hplanned
      obtain ⟨-, -, -, -, -, -, rfl⟩ := hplanned
      rfl
  next hnone =>
    cases h
    have hempty : neededSequences base.snapshotTs target usable = [] := by
      by_contra hne
      obtain ⟨first, hfirst⟩ := Option.ne_none_iff_exists'.mp (mt min?_eq_none_iff.mp hne)
      obtain ⟨last, hlast⟩ := Option.ne_none_iff_exists'.mp (mt max?_eq_none_iff.mp hne)
      exact hnone first last hfirst hlast
    constructor
    · rintro s - ⟨planned, hplanned, -⟩
      cases hplanned
    · intro a b s hs ha hda
      have hin := (hneeded a.id).mpr ⟨a, ha, rfl, hda⟩
      rw [hempty] at hin
      cases hin

/-! ## Coverage -/

theorem Archive.congr (h : Archive repo history archived)
    (hsame : ∀ key, key ≠ repositoryGeneration → repo'.get? key = repo.get? key) :
    Archive repo' history archived := by
  have hwal : ∀ key, ascii "wal_archive/" <+: key → key ≠ repositoryGeneration := by
    rintro key hkey rfl
    revert hkey
    decide
  refine ⟨h.sub, fun key hkey hstart hend => ?_, fun s hs => ?_⟩
  · rw [hsame key (hwal key hstart)] at hkey
    exact h.keys key hkey hstart hend
  obtain ⟨body, hbody, hparse⟩ := h.index s hs
  refine ⟨body, ?_, hparse⟩
  rw [hsame _ (hwal _ ?_), hbody]
  rw [walIndexKey, append_assoc]
  exact prefix_append _ _

/-- A plan covers its window exactly when no needed segment is missing at an end of
the segments that the archive shows to be needed. -/
theorem plan_covers_iff {source : Option (Option RecoveryGeneration)} {target : Nat}
    {plan : PitrRestorePlan} {base : BackupManifest} (hchain : Chained history)
    (harchive : Archive repo history archived) (hbase : baseFor repo target = .ok base)
    (hplan : Plans repo source target plan) :
    Covered history archived base.snapshotTs target plan.walSegments ↔
      EndsKept history archived (Usable archived (planFloor repo base) base.timelineId)
        base.snapshotTs target := by
  refine SelectsBetween.covered_iff ?_
  rcases walSegments_of_plans hbase hplan with ⟨rfl, hnone⟩ | hsegments
  · -- Nothing is above the base and at most the base.
    have hempty : ∀ c : WalCommittedTxn, c.inWindow base.snapshotTs base.snapshotTs ≠ true := by
      intro c hwindow
      simp only [WalCommittedTxn.inWindow, decide_eq_true_eq] at hwindow
      omega
    rw [hnone]
    constructor
    · rintro s - ⟨planned, hplanned, -⟩
      cases hplanned
    · rintro a b s - - (⟨c, -, hwindow⟩ | ⟨u, c, -, -, hwindow, -⟩)
      all_goals exact absurd hwindow (hempty c)
  · have hsame : ∀ key, key ≠ repositoryGeneration →
        (validatePitrGeneration repo source base target).1.get? key = repo.get? key :=
      fun key hkey => get?_validatePitrGeneration hkey
    have hselects := planWalSegments_selects hchain (harchive.congr hsame) hsegments
    rwa [planFloor_congr hsame] at hselects

end Archive

end BackupOrchestrator

/-! ## A segment that goes missing -/

namespace Fixed

/-- Two segments: a transaction writes in the first and commits in the second. -/
def firstRecords : List Lsm.WalRecord :=
  [.segmentHeader none, .writeIntent 7 [107] [118] (some 11)]

def secondRecords : List Lsm.WalRecord := [.segmentHeader (some 1), .commitTxn 7 15]

/-- A reader of the two segments. -/
scoped instance walReader : WalReader where
  recover bytes :=
    if bytes = [1] then .ok firstRecords
    else if bytes = [2] then .ok secondRecords
    else .error "corrupt WAL"

def firstIndex : WalArchiveIndex := archiveIndex (ascii "1.log") [1] (txnIndexOf firstRecords)
def secondIndex : WalArchiveIndex := archiveIndex (ascii "2.log") [2] (txnIndexOf secondRecords)

/-- The texts of `backupCodec`, with those of the two indexes. -/
@[reducible] def archiveCodec : BackupCodec :=
  { backupCodec with
    indexText := fun index => index.segmentId
    parseIndex := fun text =>
      if text = ascii "1.log" then some firstIndex
      else if text = ascii "2.log" then some secondIndex
      else none }

end Fixed

namespace BackupOrchestrator

open Fixed

def firstSegment : SourceSegment := ⟨1, [1], firstRecords, by decide⟩
def secondSegment : SourceSegment := ⟨2, [2], secondRecords, by decide⟩

theorem chained_segments : Chained [firstSegment, secondSegment] := by
  simp only [Chained]
  decide +kernel

/-- A full backup, and the archive of some segments. -/
def archiveOf (segments : List SourceSegment) : BackupRepository :=
  letI := archiveCodec
  segments.foldl
    (fun repo s => (archiveWalIndexed repo none s.filename s.bytes (txnIndexOf s.records)).1)
    (call .empty (emptyFull "a"))

/-- With both segments the plan covers what the transaction wrote. -/
theorem plan_covers_both :
    letI := archiveCodec
    ∃ plan, Plans (archiveOf [firstSegment, secondSegment]) none 20 plan ∧
      Covered [firstSegment, secondSegment] [firstSegment, secondSegment] 10 20
        plan.walSegments := by
  let := archiveCodec
  have harchive : Archive (archiveOf [firstSegment, secondSegment]) [firstSegment, secondSegment]
      [firstSegment, secondSegment] := by
    refine ⟨fun s hs => hs, fun key hkey hstart hend => ?_, fun s hs => ?_⟩
    · have hkeys : ∀ key ∈ (archiveOf [firstSegment, secondSegment]).keys,
          ascii "wal_archive/" <+: key → ascii ".index.json" <:+ key →
          key = walIndexKey firstSegment.filename ∨ key = walIndexKey secondSegment.filename := by
        decide +kernel
      rcases hkeys key (OrdMap.mem_keys.mpr hkey) hstart hend with rfl | rfl
      · exact ⟨firstSegment, by simp, rfl⟩
      · exact ⟨secondSegment, by simp, rfl⟩
    · rcases mem_cons.mp hs with rfl | hs
      · exact ⟨ascii "1.log", by decide +kernel, by decide +kernel⟩
      · rw [mem_singleton.mp hs]
        exact ⟨ascii "2.log", by decide +kernel, by decide +kernel⟩
  obtain ⟨plan, hplan⟩ : ∃ plan, (planPitrRestore (archiveOf [firstSegment, secondSegment]) 1 none
      20).2.bind Except.toOption = some plan := by
    decide +kernel
  have hplans := plans_of_run hplan
  obtain ⟨base, hbase, hsnapshot, htimeline, hfloor⟩ :
      ∃ base, baseFor (archiveOf [firstSegment, secondSegment]) 20 = .ok base ∧
        base.snapshotTs = 10 ∧ base.timelineId = defaultTimelineId ∧
        planFloor (archiveOf [firstSegment, secondSegment]) base = 0 := by
    decide +kernel
  refine ⟨plan, hplans, ?_⟩
  rw [← hsnapshot]
  refine (plan_covers_iff chained_segments harchive hbase hplans).mpr fun s hs => .inl ?_
  refine ⟨?_, by rw [hfloor]; exact Nat.zero_le _, htimeline⟩
  rcases hs with ⟨c, hasked⟩ | ⟨hs, -⟩
  · exact hasked.mem
  · exact hs

/-- A transaction writes in segment 1 and commits at 15 in segment 2; the archive has
segment 2 only. The plan from the backup at 10 to 20 is made, without segment 1. -/
theorem plan_hides_first_segment :
    letI := archiveCodec
    Chained [firstSegment, secondSegment] ∧
      Archive (archiveOf [secondSegment]) [firstSegment, secondSegment] [secondSegment] ∧
      ∃ plan, Plans (archiveOf [secondSegment]) none 20 plan ∧
        ¬ Covered [firstSegment, secondSegment] [secondSegment] plan.baseSnapshotTs plan.targetTs
          plan.walSegments := by
  let := archiveCodec
  refine ⟨chained_segments, ⟨fun s hs => mem_cons_of_mem _ hs, fun key hkey hstart hend => ?_,
    fun s hs => ?_⟩, ?_⟩
  · refine ⟨secondSegment, mem_cons_self, ?_⟩
    have hkeys : ∀ key ∈ (archiveOf [secondSegment]).keys, ascii "wal_archive/" <+: key →
        ascii ".index.json" <:+ key → key = walIndexKey secondSegment.filename := by
      decide +kernel
    exact hkeys key (OrdMap.mem_keys.mpr hkey) hstart hend
  · rw [mem_singleton.mp hs]
    exact ⟨ascii "2.log", by decide +kernel, by decide +kernel⟩
  obtain ⟨plan, hplan, hsnapshot, htarget, hsegments⟩ :
      ∃ plan, (planPitrRestore (archiveOf [secondSegment]) 1 none 20).2.bind Except.toOption =
        some plan ∧ plan.baseSnapshotTs = 10 ∧ plan.targetTs = 20 ∧
        plan.walSegments.map (·.segmentId) = [secondSegment.filename] := by
    decide +kernel
  refine ⟨plan, plans_of_run hplan, fun hcovered => ?_⟩
  rw [hsnapshot, htarget] at hcovered
  have hasked : Asked [firstSegment, secondSegment] [secondSegment] 10 20 secondSegment ⟨7, 15⟩ :=
    ⟨by simp, ⟨secondSegment, by simp, le_rfl⟩, ⟨.commitTxn 7 15, by decide, by decide⟩,
      by decide⟩
  -- The transaction wrote in the first segment, which is not selected.
  have hwrites : firstSegment.Writes 7 := ⟨.writeIntent 7 [107] [118] (some 11), by decide, rfl⟩
  obtain ⟨planned, hplanned, hname⟩ := (hcovered _ _ hasked).2 firstSegment (by simp) hwrites
  have hmem := mem_map_of_mem (f := PitrRestoreWalSegment.segmentId) hplanned
  rw [hsegments, mem_singleton, hname] at hmem
  revert hmem
  decide +kernel

end BackupOrchestrator

end NodusDb
