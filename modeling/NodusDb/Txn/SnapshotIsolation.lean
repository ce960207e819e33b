import NodusDb.Txn.Steps

/-!
# Snapshot isolation

Two committed transactions, each reading below the other's commit timestamp, have no written key in
common, as far as the records that the conflict check needs are still there. The reaper does not see
a `begin_txn` that has drawn its timestamp only; `Undisturbed` excludes what then goes wrong.

* `no_lost_update`: in every run of undisturbed steps no update is lost.
* `lost_update`: a run in which one is.
-/

namespace NodusDb.Txn

open Sys

/-- The steps that take a timestamp from the clock. -/
def Label.draws : Label → Bool
  | .beginDraw _ _ | .commitTick _ _ _ => true
  | _ => false

namespace Sys

/-- No two committed transactions overlap and share a tracked key. -/
def NoLostUpdate (s : Sys) : Prop :=
  ∀ a b readA readB commitA commitB, a ≠ b →
    s.readAt a = some readA → s.committedAt a = some commitA →
    s.readAt b = some readB → s.committedAt b = some commitB →
    readA < commitB → readB < commitA → ∀ k ∈ s.tracked a, k ∉ s.tracked b

/-- The table `reap_finished` is called on at a step, if it is called there. -/
def reapedTable (s : Sys) : Label → Option Records
  | .reap => some s.records
  | .commitFinish t =>
    match s.pc t with
    | .stamped txnId ts => (s.records.get? txnId).map fun record =>
        s.records.insert txnId { record with state := .committed, commitTs := some ts }
    | _ => none
  | _ => none

/-- A reap of `records` keeps every commit newer than a drawn timestamp whose
record is not yet inserted. -/
def ReapKeepsUnregistered (s : Sys) (records : Records) : Prop :=
  ∀ t r, s.pc t = .begun r → ∀ txnId record c, records.get? txnId = some record →
    record.commitTs = some c → r < c → (reapFinished records).get? txnId ≠ none

structure Undisturbed (s : Sys) (l : Label) : Prop where
  reaps : ∀ records, s.reapedTable l = some records → s.ReapKeepsUnregistered records
  tracks : ∀ txnId key, l = .trackWrite txnId key → s.committedAt txnId = none
  ticks : l.draws = true → s.clock.hlc.last < u64Max

theorem reapedTable_commitFinish {s : Sys} {t : Thread} {txnId : TxnId} {ts : Nat}
    {record : TxnRecord} (hpc : s.pc t = .stamped txnId ts)
    (hrec : s.records.get? txnId = some record) :
    s.reapedTable (.commitFinish t) = some
      (s.records.insert txnId { record with state := .committed, commitTs := some ts }) := by
  simp only [reapedTable, hpc, hrec, Option.map_some]

end Sys

/-- What makes the conflict check sufficient. -/
structure Isolated (s : Sys) : Prop where
  commit_le : ∀ txnId c, s.committedAt txnId = some c → c ≤ s.clock.hlc.last
  stamped_le : ∀ t txnId c, s.pc t = .stamped txnId c → c ≤ s.clock.hlc.last
  /-- A commit newer than a timestamp in flight is still in the table. -/
  kept : ∀ a c r, s.committedAt a = some c → s.InFlight r → r < c → s.records.get? a ≠ none
  /-- A transaction past its conflict check is disjoint from every newer commit. -/
  checked : ∀ t txnId r b c, (s.pc t).commits = some txnId → s.readAt txnId = some r →
    s.committedAt b = some c → r < c → ∀ k ∈ s.tracked txnId, k ∉ s.tracked b
  safe : s.NoLostUpdate

namespace Isolated

theorem init (clock : ClockState) : Isolated (Sys.init clock) := by
  constructor <;> simp [Sys.init, Sys.NoLostUpdate, Pc.commits]

variable {s : Sys} {txnId : TxnId} {record : TxnRecord}

section

variable (hi : Isolated s)
include hi

theorem of_frame (hr : s'.records = s.records) (hra : s'.readAt = s.readAt)
    (hca : s'.committedAt = s.committedAt) (hab : s'.aborted = s.aborted)
    (htr : s'.tracked = s.tracked) (hlast : s.clock.hlc.last ≤ s'.clock.hlc.last)
    (hbegun : ∀ t r, s'.pc t = .begun r → s.pc t = .begun r ∨ s.clock.hlc.last ≤ r)
    (hstamped : ∀ t id c, s'.pc t = .stamped id c → c ≤ s'.clock.hlc.last)
    (hcommits : ∀ t id, (s'.pc t).commits = some id → (s.pc t).commits = some id ∨ ∀ r b c,
      s.readAt id = some r → s.committedAt b = some c → r < c → ∀ k ∈ s.tracked id, k ∉ s.tracked
      b) : Isolated s' := by
  obtain ⟨hcl, hsl, hk, hch, hsafe⟩ := hi
  refine ⟨?_, hstamped, ?_, ?_, ?_⟩
  · rw [hca]
    exact fun id c h => (hcl id c h).trans hlast
  · rw [hca, hr]
    rintro a c r hc (⟨t, ht⟩ | ⟨id, hid⟩) hlt
    · rcases hbegun t r ht with hb | hge
      · exact hk a c r hc (.inl ⟨t, hb⟩) hlt
      -- A new timestamp is not below the clock, and no commit is above it.
      · exact absurd ((hcl a c hc).trans hge) (by omega)
    · rw [hra, hca, hab] at hid
      exact hk a c r hc (.inr ⟨id, hid⟩) hlt
  · rw [hra, hca, htr]
    intro t id r b c hid hr' hc hlt
    rcases hcommits t id hid with hold | hnew
    · exact hch t id r b c hold hr' hc hlt
    · exact hnew r b c hr' hc hlt
  · unfold Sys.NoLostUpdate
    rw [hra, hca, htr]
    exact hsafe

theorem insert_fresh (hta : Table s) (hfree : ∀ t, (s.pc t).commits = none)
    (hpc : s.pc t = .begun readTs) (hnew : s.readAt txnId = none) :
    Isolated { s.setPc t .idle with
      records := s.records.insert txnId ⟨txnId, .pending, readTs, none, []⟩
      readAt := Function.update s.readAt txnId (some readTs) } := by
  obtain ⟨hcl, hsl, hk, hch, hsafe⟩ := hi
  have hfresh := hta.fresh txnId hnew
  refine ⟨hcl, ?_, ?_, ?_, ?_⟩
  · grind
  · rintro a c r hc hfl hlt
    have hold : s.InFlight r := by
      unfold Sys.InFlight at hfl ⊢
      grind [Function.update_apply]
    grind [OrdMap.get?_insert, hk a c r hc hold hlt]
  · grind [Pc.commits]
  · unfold Sys.NoLostUpdate at hsafe ⊢
    grind [Function.update_apply]

theorem track {key : Bytes} (hfree : ∀ t, (s.pc t).commits = none)
    (hopen : s.committedAt txnId = none) :
    Isolated { s with
      records := s.records.insert txnId { record with writeSet := record.writeSet ++ [key] }
      tracked := Function.update s.tracked txnId (s.tracked txnId ++ [key]) } := by
  obtain ⟨hcl, hsl, hk, hch, hsafe⟩ := hi
  refine ⟨hcl, hsl, ?_, ?_, ?_⟩
  · intro a c r hc hfl hlt
    have := hk a c r hc hfl hlt
    grind [OrdMap.get?_insert]
  · grind
  · unfold Sys.NoLostUpdate at hsafe ⊢
    grind [Function.update_apply]

theorem dropAborted (hfree : ∀ t, (s.pc t).commits = none) (hopen : s.committedAt txnId = none) :
    Isolated (s.dropAborted txnId) := by
  obtain ⟨hcl, hsl, hk, hch, hsafe⟩ := hi
  refine ⟨hcl, hsl, ?_, ?_, hsafe⟩
  · intro a c r hc hfl hlt
    have hold : s.InFlight r := by
      unfold Sys.InFlight at hfl ⊢
      grind
    have := hk a c r hc hold hlt
    have hne : a ≠ txnId := by
      rintro rfl
      rw [dropAborted_committedAt, hopen] at hc
      cases hc
    rw [dropAborted_records, OrdMap.get?_erase, if_neg hne]
    exact this
  · grind

theorem reap (hta : Table s) (hok : s.ReapKeepsUnregistered s.records) :
    Isolated { s with records := reapFinished s.records } := by
  obtain ⟨hcl, hsl, hk, hch, hsafe⟩ := hi
  refine ⟨hcl, hsl, ?_, hch, hsafe⟩
  intro a c r hc hfl hlt
  obtain ⟨record, hget⟩ := Option.ne_none_iff_exists'.mp (hk a c r hc hfl hlt)
  have hca : s.committedAt a = some c := hc
  have hst : record.state = .committed ∧ record.commitTs = some c := by
    obtain ⟨-, h⟩ | ⟨h, hts, -⟩ := hta.state a record hget
    · rw [hca] at h; cases h
    · exact ⟨h, hts.trans hca⟩
  rcases hfl with ⟨t, ht⟩ | ⟨id, hr, hcn, ha⟩
  · exact hok t r ht a record c hget hst.2 hlt
  obtain ⟨open', hget', hpend, rfl⟩ := hta.pending hr hcn ha
  have hkeep := reapKeeps_of_open hget' (by rw [hpend]; rfl) hst.1 hst.2 hlt
  show (reapFinished s.records).get? a ≠ none
  rw [get?_reapFinished, hget]
  simp [hkeep]

/-- Publishing a checked transaction: the check has compared it with every
commit newer than its snapshot. -/
theorem publish (hpc : s.pc t = .stamped txnId ts)
    (hfree : ∀ u, ((s.setPc t .idle).pc u).commits = none) :
    Isolated { s.setPc t .idle with
      records := s.records.insert txnId { record with state := .committed, commitTs := some ts }
      writer := none
      committedAt := Function.update s.committedAt txnId (some ts) } := by
  obtain ⟨hcl, hsl, hk, hch, hsafe⟩ := hi
  have hts := hsl t txnId ts hpc
  have hchk : ∀ r b c, s.readAt txnId = some r → s.committedAt b = some c → r < c →
      ∀ k ∈ s.tracked txnId, k ∉ s.tracked b :=
    fun r b c => hch t txnId r b c (by rw [hpc]; rfl)
  refine ⟨?_, ?_, ?_, ?_, ?_⟩
  · grind [Function.update_apply]
  · grind
  · intro a c r hc hfl hlt
    have hold : s.InFlight r := by
      unfold Sys.InFlight at hfl ⊢
      grind [Function.update_apply]
    have := hk a c r
    grind [OrdMap.get?_insert, Function.update_apply]
  · grind
  · intro a b readA readB commitA commitB hne hra hca hrb hcb hab hba
    simp only [Function.update_apply] at hca hcb
    split at hca
    next ha =>
      subst ha
      rw [if_neg (Ne.symm hne)] at hcb
      exact hchk readA b commitB hra hcb hab
    split at hcb
    next hb =>
      subst hb
      exact fun k hka hkb => hchk readB a commitA hrb hca hba k hkb hka
    · exact hsafe a b readA readB commitA commitB hne hra hca hrb hcb hab hba

theorem disjoint_of_check (hta : Table s) (hget : s.records.get? txnId = some record)
    (hst : record.state = .pending ∨ record.state = .writing)
    (hck : conflicts s.records txnId record.readTs record.writeSet = false)
    (hr : s.readAt txnId = some r) (hb : s.committedAt b = some c) (hlt : r < c) :
    ∀ k ∈ s.tracked txnId, k ∉ s.tracked b := by
  have hnone : s.committedAt txnId = none := by grind [hta.state txnId record hget]
  obtain ⟨hra, hws, hab⟩ := hta.known txnId record hget
  have hrr : record.readTs = r := by grind
  have hin := hi.kept b c r hb (.inr ⟨txnId, hr, hnone, hab⟩) hlt
  obtain ⟨other, hother⟩ := Option.ne_none_iff_exists'.mp hin
  have hcom : other.state = .committed ∧ other.commitTs = some c := by
    grind [hta.state b other hother]
  have hne : other.txnId ≠ txnId := by
    rw [hta.keyed b other hother]
    rintro rfl
    rw [hnone] at hb
    cases hb
  intro k hk
  rw [← (hta.known b other hother).2.1]
  exact not_mem_of_not_conflicts hck hother hne hcom.1 hcom.2 (hrr ▸ hlt) (hws ▸ hk)

theorem step (hl : Locks s) (hta : Table s) (hok : s.Undisturbed l) (h : s.step l = some s') :
    Isolated s' := by
  cases l with
  | beginDraw t wall =>
    obtain ⟨-, rfl⟩ := beginDraw_inv h
    have hlt := lt_tick wall.toNat (hok.ticks rfl)
    have hsl := hi.stamped_le
    refine hi.of_frame rfl rfl rfl rfl rfl hlt.le ?_ ?_ ?_ <;> grind [tick_snd, Pc.commits]
  | beginInsert t txnId =>
    obtain ⟨r, hpc, hfree, hnew, rfl⟩ := beginInsert_inv h
    exact hi.insert_fresh hta (hl.not_commits (lockFree_iff.mp hfree).1) hpc hnew
  | trackWrite txnId key =>
    obtain ⟨hfree, ⟨-, rfl⟩ | ⟨record, -, rfl⟩⟩ := trackWrite_inv h
    · exact hi
    · exact hi.track (hl.not_commits (lockFree_iff.mp hfree).1) (hok.tracks txnId key rfl)
  | commitCheck t txnId =>
    obtain ⟨-, hfree, rfl | ⟨record, hrec, hst, rfl | ⟨hck, rfl⟩⟩⟩ := commitCheck_inv h
    · exact hi
    · refine hi.dropAborted (hl.not_commits (lockFree_iff.mp hfree).1) ?_
      grind [hta.state txnId record hrec]
    have hsl := hi.stamped_le
    refine hi.of_frame rfl rfl rfl rfl rfl le_rfl (by grind) (by grind) ?_
    intro u id hu
    by_cases hut : u = t
    · simp only [setPc_pc, hut, if_true] at hu
      cases hu
      exact .inr fun r b c hr hb hlt => hi.disjoint_of_check hta hrec hst hck hr hb hlt
    · simp only [setPc_pc, hut, if_false] at hu
      exact .inl hu
  | commitTick t wall saved =>
    obtain ⟨txnId, hpc, clock, hclock, rfl | rfl⟩ := commitTick_inv h
    all_goals
      have hlt := lt_tick wall.toNat (hok.ticks rfl)
      have hlast : clock.hlc.last = (s.clock.hlc.tick wall.toNat).1 := by rw [hclock, tick_snd]
      have hsl := hi.stamped_le
      refine hi.of_frame rfl rfl rfl rfl rfl (hlast ▸ hlt.le) ?_ ?_ ?_ <;> grind [Pc.commits]
  | commitFinish t =>
    obtain ⟨txnId, ts, record, hpc, hrec, rfl⟩ := commitFinish_inv h
    have hothers := hl.not_commits_after (txn_commits_of_stamped hpc)
    refine (hi.publish hpc hothers).reap (hta.publish hothers hrec) ?_
    have hkeep := hok.reaps _ (reapedTable_commitFinish hpc hrec)
    intro u r hu
    have hne : u ≠ t := by
      rintro rfl
      simp at hu
    exact hkeep u r (by simpa [hne] using hu)
  | abortTxn txnId =>
    obtain ⟨hfree, rfl | ⟨record, hrec, hst, rfl⟩⟩ := abortTxn_inv h
    · exact hi
    refine hi.dropAborted (hl.not_commits (lockFree_iff.mp hfree).1) ?_
    grind [hta.state txnId record hrec]
  | reap =>
    obtain ⟨-, rfl⟩ := reap_inv h
    exact hi.reap hta (hok.reaps _ rfl)
  | gcScan t =>
    obtain ⟨-, -, ⟨-, rfl⟩ | ⟨-, rfl⟩⟩ := gcScan_inv h
    · exact hi
    have hsl := hi.stamped_le
    refine hi.of_frame rfl rfl rfl rfl rfl le_rfl ?_ ?_ ?_ <;> grind [Pc.commits]
  | gcNow t wall =>
    obtain ⟨-, rfl⟩ := gcNow_inv h
    have hsl := hi.stamped_le
    refine hi.of_frame rfl rfl rfl rfl rfl le_rfl ?_ ?_ ?_ <;> grind [Pc.commits]

end

end Isolated

/-- In every run of undisturbed steps, whatever the interleaving, no update is
lost. -/
theorem no_lost_update (clock : ClockState) (ls : List Label) (s : Sys)
    (h : Run (Guarded Sys.Step Sys.Undisturbed) (Sys.init clock) ls s) : s.NoLostUpdate := by
  have hinv : Isolated s ∧ Locks s ∧ Table s :=
    h.invariant (I := fun s => Isolated s ∧ Locks s ∧ Table s)
      ⟨.init clock, .init clock, .init clock⟩
      fun s l s' ⟨hi, hl, ht⟩ ⟨hok, hs⟩ => ⟨hi.step hl ht hok hs, hl.step hs, ht.step hl hs⟩
  exact hinv.1.safe

/-! ## Concrete runs -/

/-- Two overlapping transactions that write different keys, registered before
either commits. -/
def overlapping : List Label :=
  [.beginDraw 0 0, .beginInsert 0 1, .beginDraw 1 0, .beginInsert 1 2,
   .trackWrite 1 [7], .trackWrite 2 [8],
   .commitCheck 0 1, .commitTick 0 0 true, .commitFinish 0,
   .commitCheck 1 2, .commitTick 1 0 true, .commitFinish 1]

/-- The state after the first `n` steps of `overlapping`. -/
def overlappingAfter (n : Nat) : Sys :=
  (exec Sys.step (Sys.init ⟨⟨0⟩, 0⟩) (overlapping.take n)).getD (Sys.init ⟨⟨0⟩, 0⟩)

theorem overlapping_registered (hn : n = 8 ∨ n = 11) (t : Thread) (r : Nat) :
    (overlappingAfter n).pc t ≠ .begun r := by
  have hpc : (overlappingAfter n).pc t = .idle ∨ ∃ txnId ts,
      (overlappingAfter n).pc t = .stamped txnId ts := by
    rcases hn with rfl | rfl
    · match t with
      | 0 => exact .inr ⟨1, 3, by decide⟩
      | 1 => exact .inl rfl
      | _ + 2 => exact .inl rfl
    · match t with
      | 1 => exact .inr ⟨2, 4, by decide⟩
      | 0 => exact .inl rfl
      | _ + 2 => exact .inl rfl
  rcases hpc with h | ⟨txnId, ts, h⟩ <;> rw [h] <;> nofun

theorem overlapping_undisturbed :
    Run (Guarded Sys.Step Sys.Undisturbed) (Sys.init ⟨⟨0⟩, 0⟩) overlapping
      (overlappingAfter 12) := by
  refine run_guarded_of_exec rfl fun bs l cs s hbs hs => ?_
  have hlen : bs.length < 12 := by
    have := congrArg List.length hbs
    simp [overlapping] at this
    omega
  have htake : bs = overlapping.take bs.length := by rw [hbs]; simp
  have hl : overlapping[bs.length]? = some l := by rw [hbs]; simp
  have hst : s = overlappingAfter bs.length := by
    rw [overlappingAfter, ← htake, hs, Option.getD_some]
  generalize bs.length = n at hlen hl hst
  subst hst
  interval_cases n <;> cases hl
  case «8» => exact ⟨fun _ _ t r ht => absurd ht (overlapping_registered (.inl rfl) t r), nofun,
    nofun⟩
  case «11» => exact ⟨fun _ _ t r ht => absurd ht (overlapping_registered (.inr rfl) t r), nofun,
    nofun⟩
  case «4» | «5» => exact ⟨nofun, (fun _ _ h => by cases h; rfl), nofun⟩
  all_goals exact ⟨nofun, nofun, by decide⟩

/-- Both transactions of `overlapping` commit, each reading below the other's
commit, and their keys are disjoint. -/
theorem no_lost_update_overlapping :
    (overlappingAfter 12).committedAt 1 = some 3 ∧ (overlappingAfter 12).committedAt 2 = some 4 ∧
    (overlappingAfter 12).NoLostUpdate :=
  ⟨by decide, by decide, no_lost_update _ _ _ overlapping_undisturbed⟩

/-- Thread `0` draws timestamp `1`. Transaction `2` begins at `2`, writes a key
and commits at `3`; with no registered reader its record is reaped at once. Then
thread `0` registers transaction `1`, which writes the same key and commits. -/
def reapedTooEarly : List Label :=
  [.beginDraw 0 0,
   .beginDraw 1 0, .beginInsert 1 2, .trackWrite 2 [7],
   .commitCheck 1 2, .commitTick 1 0 true, .commitFinish 1,
   .beginInsert 0 1, .trackWrite 1 [7],
   .commitCheck 0 1, .commitTick 0 0 true, .commitFinish 0]

theorem lost_update :
    ¬ ∀ clock ls s, Run Sys.Step (Sys.init clock) ls s → s.NoLostUpdate := by
  intro h
  have hsafe := h ⟨⟨0⟩, 0⟩ reapedTooEarly
    ((exec step (init ⟨⟨0⟩, 0⟩) reapedTooEarly).getD (init ⟨⟨0⟩, 0⟩))
    (run_of_exec rfl)
  exact hsafe 1 2 1 2 4 3 (by decide) (by decide) (by decide) (by decide) (by decide) (by decide)
    (by decide) [7] (by decide) (by decide)

end NodusDb.Txn
