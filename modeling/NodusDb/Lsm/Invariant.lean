import NodusDb.Lib.Run
import NodusDb.Lsm.Layers

/-!
# The engine beside a reference

The engine is compared with an in-memory engine that takes the same mutations and forgets nothing.
`Inv` says that the memtable with the table files, and the table a replay of the log gives, answer
every read at or above the largest watermark used. The second part fails while the log lacks a
change of `replace_intent` (`Traced.unlogged`). `Inv.apply` is the step lemma.
-/

namespace NodusDb.Lsm

open LsmKvEngine List

/-- Each key's commits come in the order of their timestamps. -/
def Increasing (m : Table Bytes) : Prop :=
  ∀ k, (m.view k).commits.Pairwise fun a b => a.version < b.version

def imageOf (segs : List Segment) : Table Bytes := replay 0 (segs.map (·.records))

/-- A table above the layers answers the reads of the reference. -/
structure Answers (t m : Table Bytes) (layers : List Layer)
    (W : Nat) : Prop where
  wf : t.WF
  layered : ∀ k, KeyLayered (commitsAt m k) (commitsAt t k :: layers.map (layerAt · k)) W

/-- The table also has the pending writes of the reference. -/
structure Holds (t m : Table Bytes) (layers : List Layer) (W : Nat) :
    Prop extends Answers t m layers W where
  pending : t.SamePending m

/-- The same for a table that has the newest part of every key. -/
structure HoldsUpper (t m : Table Bytes) (layers : List Layer)
    (W : Nat) : Prop extends Holds t m layers W where
  upper : ∀ k, UpperIn MvccValue.version (commitsAt m k) (commitsAt t k)

section Tables

variable {t t' m m' : Table Bytes} {layers layers' : List Layer}
  {W W' : Nat}

theorem commitsAt_congr (h : ∀ k, t.view k = t'.view k) (k : Bytes) :
    commitsAt t k = commitsAt t' k := by
  rw [commitsAt, commitsAt, h k]

theorem Holds.congr (h : Holds t m layers W) (ht : t'.WF) (hv : ∀ k, t.view k = t'.view k) :
    Holds t' m layers W := by
  refine ⟨⟨ht, fun k => ?_⟩, fun k => ?_⟩
  · rw [← commitsAt_congr hv]
    exact h.layered k
  · rw [← hv k]
    exact h.pending k

theorem HoldsUpper.congr (h : HoldsUpper t m layers W) (ht : t'.WF)
    (hv : ∀ k, t.view k = t'.view k) : HoldsUpper t' m layers W := by
  refine ⟨h.toHolds.congr ht hv, fun k => ?_⟩
  rw [← commitsAt_congr hv]
  exact h.upper k

theorem Holds.mono (h : Holds t m layers W) (hW : W ≤ W') : Holds t m layers W' :=
  ⟨⟨h.wf, fun k => (h.layered k).mono hW⟩, h.pending⟩

theorem HoldsUpper.mono (h : HoldsUpper t m layers W) (hW : W ≤ W') : HoldsUpper t m layers W' :=
  ⟨h.toHolds.mono hW, h.upper⟩

theorem Holds.grow (h : Holds t m layers W) (ht : t'.WF) (hg : Table.Grows t t' m m')
    (hinc : Increasing m') : Holds t' m' layers W := by
  refine ⟨⟨ht, fun k => ?_⟩, hg.samePending⟩
  obtain ⟨added, hta, hma⟩ := (hg k).commits
  have hs := hinc k
  rw [hma] at hs
  unfold commitsAt
  rw [hta, hma]
  exact (h.layered k).commits added hs

theorem HoldsUpper.grow (h : HoldsUpper t m layers W) (ht : t'.WF)
    (hg : Table.Grows t t' m m') (hinc : Increasing m') : HoldsUpper t' m' layers W := by
  refine ⟨h.toHolds.grow ht hg hinc, fun k => ?_⟩
  obtain ⟨added, hta, hma⟩ := (hg k).commits
  have hs := hinc k
  rw [hma] at hs
  unfold commitsAt
  rw [hta, hma]
  exact (h.upper k).commits added hs

theorem Increasing.of_mutate (hm : m.WF) (mu : Mutation) (h : Increasing (mutateTable m mu)) :
    Increasing m := by
  intro k
  obtain ⟨added, hk, -⟩ := (grows_mutateTable hm hm (fun _ => rfl) mu k).commits
  have := h k
  rw [hk] at this
  exact (pairwise_append.mp this).1

theorem Increasing.injOn (h : Increasing m) (k : Bytes) :
    Set.InjOn MvccValue.version (commitsAt m k) := by
  intro a ha b hb hab
  refine inj_on_of_nodup_map ?_ ha hb hab
  exact pairwise_map.mpr ((h k).imp fun hlt => hlt.ne)

end Tables

/-! ## The log as a table -/

section Image

variable {seg : Segment} {rest : List Segment}

theorem wf_imageOf (segs : List Segment) : (imageOf segs).WF := wf_replayRecords Table.wf_empty _

theorem imageOf_cons : imageOf (seg :: rest) = replayRecords 0 (imageOf rest) seg.records := by
  unfold imageOf replay
  rw [map_cons, reverse_cons, flatten_append, flatten_singleton, replayRecords_append]

theorem imageOf_append (seg : Segment) (h : seg'.records = seg.records ++ rs) :
    imageOf (seg' :: rest) = replayRecords 0 (imageOf (seg :: rest)) rs := by
  rw [imageOf_cons, imageOf_cons, h, replayRecords_append]

theorem imageOf_header (p : Option Nat) (n : Nat) :
    imageOf (⟨[.segmentHeader p], n⟩ :: rest) = imageOf rest := by
  rw [imageOf_cons]
  rfl

theorem view_replay_eq_image (now : Nat) (segs : List Segment) (k : Bytes) :
    (replay now (segs.map (·.records))).view k = (imageOf segs).view k :=
  view_replayRecords _ Table.wf_empty Table.wf_empty (fun _ => rfl) k

end Image

/-! ## The invariant -/

/-- The mutation changes a pending write and does not log it. -/
def unloggedBy (s : Table Bytes) : Mutation → Bool
  | .replaceIntent txnId key replacement _ =>
    decide ((s.view key).replace txnId replacement ≠ s.view key)
  | _ => false

theorem unloggedBy_eq_false (h : mu.isReplace = false) : unloggedBy s mu = false := by
  cases mu with
  | replaceIntent => cases h
  | _ => rfl

theorem replace_fixed {a b : KeyState Bytes} (h : a.pending = b.pending) {t : TxnId}
    {r : IntentReplacement Bytes} (ha : a.replace t r = a) : b.replace t r = b := by
  have hg := KeyState.grow_replace h t r
  obtain ⟨added, hadd, hb⟩ := hg.commits
  have hpend := hg.pending
  rw [ha] at hadd hpend
  have hnil : added = [] := self_eq_append_right.mp hadd
  refine KeyState.ext ?_ (hpend.symm.trans h)
  rw [hb, hnil, append_nil]

variable [ChainCodec]

structure Inv (s : LsmKvEngine) (m : Table Bytes) (W : Nat) (unlogged : Bool)
    (layers : List Layer) (segs : List Segment) : Prop where
  disk : s.OnDisk layers segs
  ref : m.WF
  increasing : Increasing m
  live : Holds s.table m layers W
  image : unlogged = false → HoldsUpper (imageOf segs) m layers W
  watermark : s.gcWatermark ≤ W

variable {s s1 s2 : LsmKvEngine} {m : Table Bytes} {W : Nat} {u : Bool}
  {layers : List Layer} {segs rest : List Segment} {seg : Segment}

omit [ChainCodec] in
theorem holds_empty : HoldsUpper .empty .empty [] W := by
  have hempty : ∀ k, commitsAt .empty k = ∅ := fun k =>
    Set.eq_empty_of_forall_notMem fun e he => absurd he not_mem_nil
  refine ⟨⟨⟨Table.wf_empty, fun k => ?_⟩, fun _ => rfl⟩, fun k => ?_⟩
  · rw [hempty]
    exact Layered.empty
  · rw [hempty]
    exact ⟨fun _ h => h, fun a ha => absurd ha (Set.notMem_empty a)⟩

theorem inv_fresh : Inv fresh .empty 0 false [] [⟨[], 0⟩] :=
  ⟨onDisk_fresh, Table.wf_empty, fun _ => List.Pairwise.nil, holds_empty.toHolds,
    fun _ => holds_empty, le_rfl⟩

omit [ChainCodec] in
theorem image_logMutation (hs : s.table.WF) (hm : m.WF) (hsm : s.table.SamePending m)
    (himg : HoldsUpper img m layers W) (mu : Mutation) (hinc : Increasing (mutateTable m mu))
    (hlog : unloggedBy s.table mu = false) :
    HoldsUpper (replayRecords n img (logged s.table mu)) (mutateTable m mu) layers W := by
  have hsi : s.table.SamePending img := fun k => (hsm k).trans (himg.pending k).symm
  cases hrep : mu.isReplace with
  | false =>
    have hgrow := himg.grow (wf_mutateTable himg.wf mu)
      (grows_mutateTable himg.wf hm himg.pending mu) hinc
    exact hgrow.congr (wf_replayRecords himg.wf _) fun k =>
      (view_replay_logged hs himg.wf hsi n mu hrep k).symm
  | true =>
    cases mu with
    | replaceIntent t key r at' =>
      have hfix : (s.table.view key).replace t r = s.table.view key := by
        by_contra hne
        rw [unloggedBy, decide_eq_false_iff_not] at hlog
        exact hlog hne
      -- Nothing is logged and nothing changes.
      have hview : ∀ k, (mutateTable m (.replaceIntent t key r at')).view k = m.view k := by
        intro k
        show (m.replaceIntent t key r at').1.view k = _
        rw [Table.view_replaceIntent hm]
        split
        next hk => rw [hk, replace_fixed (hsm key) hfix]
        · rfl
      refine ⟨⟨⟨himg.wf, fun k => ?_⟩, fun k => ?_⟩, fun k => ?_⟩
      · rw [commitsAt_congr hview]
        exact himg.layered k
      · rw [hview k]
        exact himg.pending k
      · rw [commitsAt_congr hview]
        exact himg.upper k
    | _ => cases hrep

theorem Inv.logMutation (h : Inv s m W u layers (seg :: rest)) (mu : Mutation)
    (hinc : Increasing (mutateTable m mu)) :
    Inv (s.logMutation mu) (mutateTable m mu) W (u || unloggedBy s.table mu) layers
      (⟨seg.records ++ logged s.table mu,
        if mu.syncs then (seg.records ++ logged s.table mu).length else seg.synced⟩ :: rest) := by
  refine ⟨h.disk.logMutation mu, wf_mutateTable h.ref mu, hinc, ?_, fun hu => ?_, ?_⟩
  · exact h.live.grow (wf_mutateTable h.live.wf mu)
      (grows_mutateTable h.live.wf h.ref h.live.pending mu) hinc
  · obtain ⟨hu, hlog⟩ := Bool.or_eq_false_iff.mp hu
    rw [imageOf_append seg rfl]
    exact image_logMutation h.live.wf h.ref h.live.pending (h.image hu) mu hinc hlog
  · show (s.logMutation mu).gcWatermark ≤ W
    rw [logMutation_gcWatermark]
    exact h.watermark

/-! ## Flush and compaction -/

variable {newSst : Option Nat} {walId : Nat} {m : Table Bytes}

theorem publishFlush_table (hb : s.BuiltFor newSst s1)
    (hal : s1.allocateFileId = some (walId, s2)) (retained : Bool) :
    (s2.publishFlush walId newSst retained).table = flushedTable s := by
  obtain ⟨-, -, rfl⟩ := allocateFileId_inv hal
  rcases hb with ⟨-, -, rfl⟩ | ⟨id, -, hb⟩
  · rfl
  obtain ⟨-, -, rfl⟩ := buildSst_inv hb
  rfl

theorem layered_flushedLayers (hb : s.BuiltFor newSst s1)
    (hsome : KeyLayered H (Z :: layerAt s.toFlush k :: layers.map (layerAt · k)) W)
    (hnone : s.toFlush.size = 0 → KeyLayered H (Z :: layers.map (layerAt · k)) W) :
    KeyLayered H (Z :: (flushedLayers s.toFlush newSst layers).map (layerAt · k)) W := by
  rcases hb with ⟨rfl, h0, -⟩ | ⟨id, rfl, -⟩
  · exact hnone h0
  · exact hsome

theorem Inv.publishFlush (h : Inv s m W u layers segs)
    (hb : s.BuiltFor newSst s1) (hal : s1.allocateFileId = some (walId, s2)) :
    Inv (s2.publishFlush walId newSst s.retains) m W (u && s.retains)
      (flushedLayers s.toFlush newSst layers)
      (⟨[.segmentHeader (some s.activeWal)], 1⟩ :: if s.retains then segs else []) := by
  have hlive : Holds (flushedTable s) m (flushedLayers s.toFlush newSst layers) W := by
    refine ⟨⟨wf_flushedTable h.live.wf, fun k => ?_⟩, fun k => ?_⟩
    · refine layered_flushedLayers hb (layered_flushed h.live.wf (h.live.layered k)) fun h0 => ?_
      rw [commitsAt_of_nothing h.live.wf h0]
      exact h.live.layered k
    · exact (pending_flushedTable h.live.wf).trans (h.live.pending k)
  refine ⟨h.disk.publishFlush hb hal _, h.ref, h.increasing, ?_, fun hu => ?_, ?_⟩
  · rw [publishFlush_table hb hal]
    exact hlive
  · rw [imageOf_header]
    cases hret : s.retains with
    | true =>
      rw [hret, Bool.and_true] at hu
      have himg := h.image hu
      refine ⟨⟨⟨wf_imageOf segs, fun k => ?_⟩, himg.pending⟩, himg.upper⟩
      exact layered_flushedLayers hb
        (layered_under h.live.wf (h.live.layered k) (himg.layered k) (himg.upper k))
        fun _ => himg.layered k
    | false =>
      -- Nothing is left in the memtable, and the log starts again.
      have h0 : s.table.store.size = s.toFlush.size := by
        rw [LsmKvEngine.retains, decide_eq_false_iff_not, not_not] at hret
        exact hret
      have hview : ∀ k, (flushedTable s).view k = (Table.empty : Table Bytes).view k := fun k =>
        view_of_none_retained h0
      show HoldsUpper .empty m _ W
      refine ⟨hlive.congr Table.wf_empty hview, fun k => ?_⟩
      exact ⟨fun e he => absurd he not_mem_nil, fun e he => absurd he not_mem_nil⟩
  · obtain ⟨-, -, -, -, -, hw, -⟩ := h.disk.builtFor hb
    obtain ⟨-, -, rfl⟩ := allocateFileId_inv hal
    show s1.gcWatermark ≤ W
    rw [hw]
    exact h.watermark

theorem Inv.orphan (h : Inv s m W u layers segs) {data : Layer}
    {id : Nat} (hb : s.buildSst data = some (id, s1)) : Inv s1 m W u layers segs := by
  have hd := h.disk.buildSst hb
  obtain ⟨-, -, rfl⟩ := buildSst_inv hb
  exact ⟨hd, h.ref, h.increasing, h.live, h.image, h.watermark⟩

theorem Holds.compacted (h : Holds t m layers W) (hinc : Increasing m) (hw : w ≤ W) :
    Holds t m [LsmKvEngine.compacted w (layers.reverse.map Sstable.build)] W :=
  ⟨⟨h.wf, fun k => layered_compacted (h.layered k)
    (fun e he => (m.view k).committed e he) (hinc.injOn k) hw⟩, h.pending⟩

theorem Inv.compactInner (h : Inv s m W u layers segs) :
    ∃ layers', Inv s.compactInner.1 m W u layers' segs := by
  rcases h.disk.compactInner with hs | ⟨hd, ht, hw, -, -⟩
  · rw [hs]
    exact ⟨layers, h⟩
  refine ⟨_, hd, h.ref, h.increasing, ?_, fun hu => ?_, ?_⟩
  · rw [ht]
    exact h.live.compacted h.increasing h.watermark
  · have himg := h.image hu
    exact ⟨himg.toHolds.compacted h.increasing h.watermark, himg.upper⟩
  · rw [hw]
    exact h.watermark

theorem Inv.weaken (h : Inv s m W u layers segs) (hu : u' = false → u = false) :
    Inv s m W u' layers segs :=
  ⟨h.disk, h.ref, h.increasing, h.live, fun h' => h.image (hu h'), h.watermark⟩

theorem publishFlush_floor (h : s.OnDisk layers segs)
    (hb : s.BuiltFor newSst s1) (hal : s1.allocateFileId = some (walId, s2)) (retained : Bool) :
    (s2.publishFlush walId newSst retained).minReplayWal = s.minReplayWal ↔ retained = true := by
  obtain ⟨h1, -, hact, hfloor, -⟩ := h.builtFor hb
  obtain ⟨rfl, -, rfl⟩ := allocateFileId_inv hal
  cases retained with
  | true => exact ⟨fun _ => rfl, fun _ => hfloor⟩
  | false =>
    refine ⟨fun heq => ?_, fun hf => by cases hf⟩
    have hle : s.minReplayWal ≤ s.activeWal := h.stored.lineage.pos.2
    have hlt := h1.wal_lt
    rw [hact] at hlt
    have heq' : s1.nextFileId = s.minReplayWal := heq
    omega

theorem compactInner_floor (h : s.OnDisk layers segs) :
    s.compactInner.1.minReplayWal = s.minReplayWal := by
  rcases h.compactInner with hs | ⟨-, -, -, hf, -⟩
  · rw [hs]
  · exact hf

section

variable (h : Inv s m W u layers segs)
include h

theorem Inv.flushInner :
    ∃ layers' segs', Inv s.flushInner.1 m W
      (u && decide (s.flushInner.1.minReplayWal = s.minReplayWal)) layers' segs' := by
  rcases s.flushInner_cases with hs | ⟨id, s1, hb, -, hs⟩ |
    ⟨-, newSst, s1, walId, s2, hb, hal, hs⟩
  · rw [hs]
    refine ⟨layers, segs, h.weaken fun hu => ?_⟩
    simpa using hu
  · rw [hs]
    refine ⟨layers, segs, (h.orphan hb).weaken fun hu => ?_⟩
    obtain ⟨-, -, rfl⟩ := buildSst_inv hb
    simpa using hu
  have hpub := h.publishFlush hb hal
  have hfloor := publishFlush_floor h.disk hb hal s.retains
  have hweak : (u && decide
      ((s2.publishFlush walId newSst s.retains).minReplayWal = s.minReplayWal)) = false →
      (u && s.retains) = false := by
    cases hr : s.retains with
    | false => simp
    | true =>
      rw [hr] at hfloor
      simp [hfloor]
  rcases hs with hs | hs
  · rw [hs]
    exact ⟨_, _, hpub.weaken hweak⟩
  rw [hs]
  obtain ⟨layers', hc⟩ := hpub.compactInner
  refine ⟨layers', _, hc.weaken fun hu => ?_⟩
  refine hweak ?_
  rwa [compactInner_floor hpub.disk] at hu

/-! ## The other calls -/

theorem Inv.garbageCollect (watermark : Nat) :
    Inv (s.garbageCollect watermark).1 m (max W watermark) u layers segs := by
  have hlive := h.live.mono (le_max_left W watermark)
  refine ⟨⟨h.disk.stored, h.disk.below⟩, h.ref, h.increasing,
    ⟨⟨wf_garbageCollect h.live.wf, fun k => ?_⟩, fun k => ?_⟩,
    fun hu => (h.image hu).mono (le_max_left W watermark), le_max_right W watermark⟩
  · exact layered_collected h.live.wf (hlive.layered k) (le_max_right W watermark)
  · exact (pending_garbageCollect h.live.wf).trans (h.live.pending k)

theorem Inv.setFlushThreshold (bytes : Nat) : Inv (s.setFlushThreshold bytes) m W u layers segs :=
  ⟨⟨h.disk.stored, h.disk.below⟩, h.ref, h.increasing, h.live, h.image, h.watermark⟩

theorem Inv.addMemtableBytes (n : Nat) : Inv (s.addMemtableBytes n) m W u layers segs :=
  ⟨h.disk.addMemtableBytes n, h.ref, h.increasing, h.live, h.image, h.watermark⟩

end

theorem Inv.withWal (h : Inv s m W false layers segs) (now : Nat) :
    ∃ r, withWal s.disk now = .ok r ∧ Inv r m W false layers segs ∧
      r.minReplayWal = s.minReplayWal := by
  obtain ⟨r, hopen, hd, ht, hw, hfloor⟩ := reopen_onDisk h.disk.stored h.disk.below now
  refine ⟨r, hopen, ⟨hd, h.ref, h.increasing, ?_, h.image, hw ▸ Nat.zero_le W⟩, hfloor⟩
  rw [ht]
  exact (h.image rfl).toHolds.congr (wf_replayRecords Table.wf_empty _) fun k =>
    (view_replay_eq_image now segs k).symm

theorem Inv.mutate (h : Inv s m W u layers segs) (mu : Mutation)
    (hinc : Increasing (mutateTable m mu)) :
    ∃ layers' segs', Inv (s.mutate mu).1 (mutateTable m mu) W
      ((u || unloggedBy s.table mu) && decide ((s.mutate mu).1.minReplayWal = s.minReplayWal))
      layers' segs' := by
  obtain ⟨seg, rest, rfl, -⟩ := h.disk.stored.lineage.head
  have hlog := h.logMutation mu hinc
  have hfloor := s.logMutation_minReplayWal mu
  rcases s.mutate_cases mu with hm | ⟨n, hm⟩
  · rw [hm]
    refine ⟨_, _, hlog.weaken fun hu => ?_⟩
    simpa [hfloor] using hu
  rw [hm]
  have hbytes := hlog.addMemtableBytes n
  have hfloor' : ((s.logMutation mu).addMemtableBytes n).minReplayWal = s.minReplayWal := hfloor
  unfold maybeFlushBySize
  split
  · obtain ⟨layers', segs', hf⟩ := hbytes.flushInner
    rw [hfloor'] at hf
    exact ⟨layers', segs', hf⟩
  · refine ⟨_, _, hbytes.weaken fun hu => ?_⟩
    simpa [hfloor'] using hu

/-! ## Runs -/

/-- The reference takes the mutations and nothing else. -/
def refApply (m : MemKvEngine Bytes) : Op → MemKvEngine Bytes
  | .mutate mu => mutateTable m mu
  | _ => m

structure Traced where
  engine : LsmKvEngine
  /-- An in-memory engine after the same mutations. -/
  ref : MemKvEngine Bytes
  /-- The largest watermark used so far. -/
  watermark : Nat
  /-- The log from the replay floor on lacks a change of a savepoint. -/
  unlogged : Bool

namespace Traced

omit [ChainCodec] in
def start : Traced := ⟨fresh, .empty, 0, false⟩

def apply (t : Traced) (op : Op) : Option Traced :=
  (t.engine.apply op).map fun s =>
    { engine := s
      ref := refApply t.ref op
      watermark := match op with
        | .garbageCollect watermark => max t.watermark watermark
        | _ => t.watermark
      unlogged := (t.unlogged || match op with
        | .mutate mu => unloggedBy t.engine.table mu
        | _ => false) && decide (s.minReplayWal = t.engine.minReplayWal) }

def Ok (t : Traced) : Prop :=
  ∃ layers segs, Inv t.engine t.ref t.watermark t.unlogged layers segs

theorem ok_start : start.Ok := ⟨_, _, inv_fresh⟩

def Replayable (t : Traced) : Op → Prop
  | .reopen _ => t.unlogged = false
  | _ => True

instance (t : Traced) (op : Op) : Decidable (t.Replayable op) := by
  cases op <;> unfold Replayable <;> infer_instance

theorem Ok.apply {t : Traced} (h : t.Ok) {op : Op} (hinc : Increasing (refApply t.ref op))
    (hr : t.Replayable op) : ∃ t', t.apply op = some t' ∧ t'.Ok ∧ t'.ref = refApply t.ref op := by
  obtain ⟨layers, segs, h⟩ := h
  cases op with
  | mutate mu =>
    obtain ⟨layers', segs', hm⟩ := h.mutate mu hinc
    exact ⟨_, rfl, ⟨layers', segs', hm⟩, rfl⟩
  | flush =>
    obtain ⟨layers', segs', hf⟩ := h.flushInner
    refine ⟨_, rfl, ⟨layers', segs', hf.weaken fun hu => ?_⟩, rfl⟩
    rwa [Bool.or_false] at hu
  | compact =>
    obtain ⟨layers', hc⟩ := h.compactInner
    refine ⟨_, rfl, ⟨layers', segs, hc.weaken fun hu => ?_⟩, rfl⟩
    have hfloor : t.engine.compact.1.minReplayWal = t.engine.minReplayWal :=
      compactInner_floor h.disk
    simpa [hfloor] using hu
  | garbageCollect watermark =>
    refine ⟨_, rfl, ⟨layers, segs, (h.garbageCollect watermark).weaken fun hu => ?_⟩, rfl⟩
    have hfloor : (t.engine.garbageCollect watermark).1.minReplayWal = t.engine.minReplayWal := rfl
    simpa [hfloor] using hu
  | setFlushThreshold bytes =>
    refine ⟨_, rfl, ⟨layers, segs, (h.setFlushThreshold bytes).weaken fun hu => ?_⟩, rfl⟩
    have hfloor : (t.engine.setFlushThreshold bytes).minReplayWal = t.engine.minReplayWal := rfl
    simpa [hfloor] using hu
  | reopen now =>
    have hfalse : t.unlogged = false := hr
    rw [hfalse] at h
    obtain ⟨r, hopen, hinv, -⟩ := h.withWal now
    have happly : t.engine.apply (.reopen now) = some r := by
      show (withWal t.engine.disk now).toOption = some r
      rw [hopen]
      rfl
    exact ⟨_, congrArg (Option.map _) happly, ⟨layers, segs, hinv.weaken fun _ => rfl⟩, rfl⟩

theorem ref_of_apply {t t' : Traced} {op : Op} (h : t.apply op = some t') :
    t'.ref = refApply t.ref op := by
  obtain ⟨s, -, rfl⟩ := Option.map_eq_some_iff.mp h
  rfl

/-- A run whose calls all meet `ok`. -/
abbrev RunOk (ok : Traced → Op → Prop) : Traced → List Op → Traced → Prop :=
  Run (Guarded (fun t op t' => t.apply op = some t') ok)

end Traced

omit [ChainCodec] in
theorem wf_refApply (h : m.WF) (op : Op) : (refApply m op).WF := by
  cases op with
  | mutate mu => exact wf_mutateTable h mu
  | _ => exact h

omit [ChainCodec] in
theorem Increasing.of_refApply (hm : m.WF) (h : Increasing (refApply m op)) : Increasing m := by
  cases op with
  | mutate mu => exact h.of_mutate hm mu
  | _ => exact h

/-- Along a run that reopens only complete logs, the invariant holds wherever
the commits so far came in order. -/
theorem Traced.ok_of_run (hr : RunOk Traced.Replayable start ops t) (hinc : Increasing t.ref) :
    t.Ok := by
  have hwf : ∀ {ops : List Op} {t : Traced}, RunOk Traced.Replayable start ops t → t.ref.WF := by
    intro ops t hr
    refine hr.invariant (I := fun t => t.ref.WF) Table.wf_empty fun t op u h hstep => ?_
    rw [ref_of_apply hstep.2]
    exact wf_refApply h op
  induction hr with
  | nil => exact ok_start
  | snoc hprev hstep ih =>
    rw [ref_of_apply hstep.2] at hinc
    obtain ⟨u, hu, hok, -⟩ := (ih (hinc.of_refApply (hwf hprev))).apply hinc hstep.1
    rw [hstep.2] at hu
    cases hu
    exact hok

omit [ChainCodec] in
theorem increasing_of_entries
    (h : ∀ e ∈ m.store.entries, e.2.state.commits.Pairwise fun a b => a.version < b.version) :
    Increasing m := by
  intro k
  unfold Table.view Table.chainAt
  cases hget : m.store.get? k with
  | none => exact List.Pairwise.nil
  | some c => exact h (k, c) (OrdMap.mem_entries.mpr hget)

end NodusDb.Lsm
