import NodusDb.Sharding.CrossShard

/-!
# Recovery of commits over several groups

* `Cluster.commit_atomic`: without a record nothing of the transaction is visible; with one nothing
  is lost, and once a pass that began after it completes everything is visible.
* `Cluster.pass_completes_without_record`: a pass whose scan comes before the record.
-/

namespace NodusDb

open Raft List
open Raft.Migration (EpochMutationV1)

/-! ## A pass in a sound state -/

namespace Pass

variable [TextParsers]

/-- If the scan found the transaction's record, one of the keys to do is its key
or the transaction is visible. -/
def Todo (c : CrossShard) (n₀ n : Net) (scanned : List (KvPair Raft.Value)) (keys : List Bytes) :
    Prop :=
  recordKey c.txn ∈ scanned.map (·.key) → recordKey c.txn ∈ keys ∨ c.Visible n₀ n

/-- A row of a scan: if it is the transaction's, it is its record. -/
def RowSound (c : CrossShard) (n : Net) (row : KvPair Raft.Value) : Prop :=
  (txn2pcPrefix ≤ row.key ∧ row.key < txn2pcEnd) ∧
    (c.Names row.key →
      row.key = recordKey c.txn ∧ c.Recorded n ∧ c.IsRecord (some row.value))

/-- The commits a pass still has to drive are those of the record it read. -/
def DrivingSound (c : CrossShard) (n₀ n : Net) (txn : Uuid) (key : Bytes) (record : PendingTxn)
    (rest : List Bytes) : Prop :=
  (txn = c.txn → (∃ enabled, record = c.record enabled) ∧ c.Recorded n ∧
    ∀ g ∈ c.participants, g ∈ rest ∨ c.VisibleAt n₀ n g) ∧
  (txn ≠ c.txn → ¬ c.Names key)

def PcSound (c : CrossShard) (n₀ n : Net) (scanned : List (KvPair Raft.Value)) : PassPc → Prop
  | .idle | .failed => True
  | .next rows => rows ⊆ scanned ∧ Todo c n₀ n scanned (rows.map (·.key))
  | .driving txn key record rest rows =>
    rows ⊆ scanned ∧ Todo c n₀ n scanned (key :: rows.map (·.key)) ∧
      (c.Names key → key = recordKey c.txn) ∧ DrivingSound c n₀ n txn key record rest
  | .deleting key _ rows =>
    rows ⊆ scanned ∧ Todo c n₀ n scanned (rows.map (·.key)) ∧
      (c.Names key → key = recordKey c.txn ∧ c.Visible n₀ n)
  | .clearing _ id _ rows =>
    rows ⊆ scanned ∧ Todo c n₀ n scanned (rows.map (·.key)) ∧ id ∈ n.used ∧ Net.Clears c n id
  | .done => Todo c n₀ n scanned []

structure Sound (c : CrossShard) (n₀ n : Net) (p : Pass) : Prop where
  rows : ∀ row ∈ p.scanned, RowSound c n row
  found : c.RecordedIn p.copy → recordKey c.txn ∈ p.scanned.map (·.key) ∨ c.Visible n₀ n
  pc : PcSound c n₀ n p.scanned p.pc

variable {c : CrossShard} {n₀ n n' : Net} {p p' : Pass} {turn : Turn}
  {scanned : List (KvPair Raft.Value)}

omit [TextParsers] in
theorem Todo.mono {keys : List Bytes} (h : Todo c n₀ n scanned keys) (hf : Net.Frame c n n') :
    Todo c n₀ n' scanned keys := by
  intro hmem
  rcases h hmem with hkey | hv
  · exact .inl hkey
  · exact .inr (hv.mono hf)

variable {record : PendingTxn} {txn : Uuid}

theorem DrivingSound.mono {key : Bytes} {rest : List Bytes}
    (h : DrivingSound c n₀ n txn key record rest) (hf : Net.Frame c n n') :
    DrivingSound c n₀ n' txn key record rest := by
  refine ⟨fun htxn => ?_, h.2⟩
  obtain ⟨hrecord, hrec, hdriven⟩ := h.1 htxn
  refine ⟨hrecord, hrec.mono hf, fun g hg => ?_⟩
  rcases hdriven g hg with hmem | hv
  · exact .inl hmem
  · exact .inr (hv.mono hf)

theorem PcSound.mono {pc : PassPc} (h : PcSound c n₀ n scanned pc) (hf : Net.Frame c n n') :
    PcSound c n₀ n' scanned pc := by
  cases pc with
  | idle => trivial
  | failed => trivial
  | next rows => exact ⟨h.1, h.2.mono hf⟩
  | driving txn key record rest rows => exact ⟨h.1, h.2.1.mono hf, h.2.2.1, h.2.2.2.mono hf⟩
  | deleting key version rows =>
    refine ⟨h.1, h.2.1.mono hf, fun hname => ?_⟩
    obtain ⟨hkey, hv⟩ := h.2.2 hname
    exact ⟨hkey, hv.mono hf⟩
  | clearing version id epoch rows =>
    obtain ⟨hrows, htodo, hid, hclears⟩ := h
    exact ⟨hrows, htodo.mono hf, hf.used hid, hclears.mono hid hf⟩
  | done => exact Todo.mono h hf

theorem Sound.mono (h : p.Sound c n₀ n) (hf : Net.Frame c n n') : p.Sound c n₀ n' := by
  refine ⟨fun row hrow => ?_, fun hrec => (h.found hrec).imp_right fun hv => hv.mono hf,
    h.pc.mono hf⟩
  obtain ⟨hrange, hrow⟩ := h.rows row hrow
  refine ⟨hrange, fun hname => ?_⟩
  obtain ⟨hkey, hrec, hvalue⟩ := hrow hname
  exact ⟨hkey, hrec.mono hf, hvalue⟩

/-- A scan of a copy of the meta group. If the record was committed before, the scan
returns it or it was cleared, and then everything is visible. -/
theorem sound_scan (hs : Net.Sound c n₀ n) (hname : c.Names (recordKey c.txn))
    (hkv : kv ∈ n.metaHistory)
    (hscan : MemKvEngine.scan kv txn2pcPrefix txn2pcEnd u64Max = .ok rows) :
    Sound c n₀ n ⟨kv, rows, .next rows⟩ := by
  obtain ⟨rows', hrows', -, hspec⟩ :=
    MemKvEngine.scan_spec kv (show txn2pcPrefix ≤ txn2pcEnd by decide) u64Max
  rw [hscan] at hrows'
  cases hrows'
  have hcommit : ∀ {j m}, (kv.chainAt j).newestVisible u64Max = some m →
      m ∈ (kv.view j).commits := by
    intro j m hm
    obtain ⟨hin, hintent⟩ := (VersionChain.isNewest_of_newestVisible hm).1
    exact mem_filter.mpr ⟨hin, by rw [hintent]; rfl⟩
  refine ⟨fun row hrow => ?_, fun hrec => ?_, fun _ hrow => hrow, fun hmem => .inl hmem⟩
  · obtain ⟨hrange, m, hm, hvalue, -⟩ := (hspec row).mp hrow
    refine ⟨hrange, fun hname => ?_⟩
    have hnow := hs.history kv hkv row.key hname m (hcommit hm)
    obtain ⟨hkey, hv, -⟩ := hs.versions row.key hname m hnow
    rw [hvalue] at hv
    rcases hv with ⟨hnone, -⟩ | hrec
    · cases hnone
    · exact ⟨hkey, ⟨m, hkey ▸ hnow, hvalue ▸ hrec⟩, hrec⟩
  · obtain ⟨m, hm, -⟩ := hrec
    obtain ⟨-, -, hle⟩ := hs.versions _ hname m (hs.history kv hkv _ hname m hm)
    cases hnewest : (kv.chainAt (recordKey c.txn)).newestVisible u64Max with
    | none =>
      obtain ⟨hin, hcommitted⟩ := mem_filter.mp hm
      exact absurd hle (VersionChain.newestVisible_eq_none.mp hnewest m
        ⟨hin, by simpa using hcommitted⟩)
    | some e =>
      obtain ⟨-, ⟨-, hv⟩ | ⟨enabled, hvalue⟩, -⟩ :=
        hs.versions _ hname e (hs.history kv hkv _ hname e (hcommit hnewest))
      · exact .inr hv
      · refine .inl (mem_map.mpr
          ⟨⟨recordKey c.txn, .data (c.record enabled).encode, e.version⟩, ?_, rfl⟩)
        exact (hspec _).mpr ⟨hname.1, e, hnewest, hvalue, rfl⟩

theorem parse_eq_some (h : parse row = some (txn, record)) :
    TextParsers.uuid (row.key.drop txn2pcPrefix.length) = some txn ∧
      ∃ bytes, row.value = .data bytes ∧ PendingTxn.decode bytes = .ok record := by
  unfold parse at h
  split at h
  next bytes hvalue =>
    split at h
    next record' hdecode =>
      obtain ⟨txn', htxn, heq⟩ := Option.map_eq_some_iff.mp h
      cases heq
      exact ⟨htxn, bytes, hvalue, hdecode⟩
    · cases h
  · cases h

theorem drivingSound_of_parse (hrow : RowSound c n row)
    (hdecode : ∀ enabled, PendingTxn.decode (c.record enabled).encode = .ok (c.record enabled))
    (h : parse row = some (txn, record)) :
    DrivingSound c n₀ n txn row.key record record.participants := by
  obtain ⟨huuid, bytes, hvalue, hrecord⟩ := parse_eq_some h
  refine ⟨fun htxn => ?_, fun hne hname => ?_⟩
  · have hname : c.Names row.key := ⟨hrow.1, by rw [huuid, htxn]⟩
    obtain ⟨-, hrec, enabled, heq⟩ := hrow.2 hname
    have hbytes : bytes = (c.record enabled).encode := by
      rw [hvalue] at heq
      cases heq
      rfl
    rw [hbytes, hdecode] at hrecord
    cases hrecord
    exact ⟨⟨enabled, rfl⟩, hrec, fun g hg => .inl hg⟩
  · exact hne (Option.some.inj (huuid.symm.trans hname.2))

theorem step_of_calm {pc : PassPc} (h : p.Sound c n₀ n) (hcalm : Net.Calm c n₀ n n')
    (hpc : PcSound c n₀ n' p.scanned pc) :
    Net.Calm c n₀ n n' ∧ Sound c n₀ n' { p with pc := pc } :=
  ⟨hcalm, (h.mono hcalm.frame).rows, (h.mono hcalm.frame).found, hpc⟩

/-- The commit of another transaction leaves the record alone, since its id is not
one that was drawn. -/
theorem calm_commit (hs : Net.Sound c n₀ n) (hname : c.Names (recordKey c.txn))
    (hne : txn ≠ c.txn) (hused : txn ∉ n.used) (hr : r.kv = (n.groups g).kv.commit txn ts) :
    Net.Calm c n₀ n (n.set g r) := by
  have hview : ∀ j, r.kv.view j = (n.view g j).commit txn ts := hs.view_commit hr
  refine hs.other hname ⟨hr ▸ (hs.wf g).commit _, fun j => ?_, fun j value hp => ?_⟩ ?_
  · rw [hview]
    exact .commit hne
  · rw [hview, KeyState.commit_of_pending_ne hp hne.symm]
  · rintro rfl j hj
    rw [hview, KeyState.commit_of_owner_ne (hs.owner_ne hj hused)]

variable [Hashes] [Serde]

omit [TextParsers] in
theorem send_eq_some (h : p.send n g cmd turn yes = some (n', p')) :
    ∃ ok, n.submit g cmd turn.index = some (n', ok) ∧
      p' = { p with pc := if ok then yes else .failed } := by
  obtain ⟨⟨n₁, ok⟩, hsubmit, heq⟩ := Option.map_eq_some_iff.mp h
  cases heq
  exact ⟨ok, hsubmit, rfl⟩

theorem Sound.step (hs : Net.Sound c n₀ n) (hname : c.Names (recordKey c.txn))
    (hdecode : ∀ enabled, PendingTxn.decode (c.record enabled).encode = .ok (c.record enabled))
    (h : p.Sound c n₀ n)
    (hids : ∀ txn key record rest rows, p.pc = .driving txn key record rest rows → txn ∉ n.used)
    (hnext : p.next c n turn = some (n', p')) : Net.Calm c n₀ n n' ∧ p'.Sound c n₀ n' := by
  have hpc := h.pc
  have hrejected : ∀ {g : Bytes} {r : Replica}, r.kv = (n.groups g).kv →
      Net.Calm c n₀ n (n.set g r) := fun hr => hs.rejected hname hr
  unfold next at hnext
  split at hnext
  next heq =>
    cases hnext
    rw [heq] at hpc
    exact step_of_calm h (.refl hs) hpc.2
  next row rows heq =>
    rw [heq] at hpc
    obtain ⟨hsub, htodo⟩ := hpc
    split at hnext
    next txn record hparse =>
      cases hnext
      have hrow := h.rows row (hsub mem_cons_self)
      exact step_of_calm h (.refl hs) ⟨fun _ hr => hsub (mem_cons_of_mem _ hr), htodo,
        fun hn => (hrow.2 hn).1, drivingSound_of_parse hrow hdecode hparse⟩
    · cases hnext
      exact step_of_calm h (.refl hs) trivial
  next txn key record rows heq =>
    rw [heq] at hpc
    obtain ⟨hsub, htodo, hkey, hdriving⟩ := hpc
    split at hnext
    next version hversion =>
      cases hnext
      -- The record of this row is driven, or the row is another transaction's.
      by_cases htxn : txn = c.txn
      · obtain ⟨-, -, hdriven⟩ := hdriving.1 htxn
        have hv : c.Visible n₀ n := fun g hg => (hdriven g hg).resolve_left nofun
        exact step_of_calm h (.refl hs) ⟨hsub, fun _ => .inr hv, fun hn => ⟨hkey hn, hv⟩⟩
      refine step_of_calm h (.refl hs)
        ⟨hsub, fun hmem => ?_, fun hn => absurd hn (hdriving.2 htxn)⟩
      rcases htodo hmem with hmem' | hv
      · rcases mem_cons.mp hmem' with hk | hmem'
        · exact absurd (hk ▸ hname) (hdriving.2 htxn)
        · exact .inl hmem'
      · exact .inr hv
    · cases hnext
      exact step_of_calm h (.refl hs) trivial
  next txn key record g rest rows heq =>
    have hused := hids _ _ _ _ _ heq
    rw [heq] at hpc
    obtain ⟨hsub, htodo, hkey, hdriving⟩ := hpc
    obtain ⟨ok, hsubmit, rfl⟩ := send_eq_some hnext
    obtain ⟨r, rfl, ⟨rfl, hr⟩ | ⟨rfl, hr, -⟩⟩ := Net.submit_epochCommand (hs.wf g) hsubmit
    · exact step_of_calm h (hrejected hr) trivial
    by_cases htxn : txn = c.txn
    · subst htxn
      obtain ⟨⟨enabled, rfl⟩, hrec, hdriven⟩ := hdriving.1 rfl
      obtain ⟨hcalm, hvisible⟩ := hs.drive hname hrec hr
      refine step_of_calm h hcalm ⟨hsub, htodo.mono hcalm.frame, hkey, fun _ => ?_, hdriving.2⟩
      refine ⟨⟨enabled, rfl⟩, hrec.mono hcalm.frame, fun g' hg' => ?_⟩
      rcases hdriven g' hg' with hmem | hv
      · rcases mem_cons.mp hmem with rfl | hmem
        · exact .inr hvisible
        · exact .inl hmem
      · exact .inr (hv.mono hcalm.frame)
    · have hcalm := calm_commit hs hname htxn hused hr
      exact step_of_calm h hcalm ⟨hsub, htodo.mono hcalm.frame, hkey,
        fun heq => absurd heq htxn, hdriving.2⟩
  next key version rows heq =>
    rw [heq] at hpc
    obtain ⟨hsub, htodo, hkey⟩ := hpc
    split at hnext
    · cases hnext
    next hfresh =>
    rw [not_or] at hfresh
    obtain ⟨hfresh, hid⟩ := hfresh
    obtain ⟨ok, hsubmit, rfl⟩ := send_eq_some hnext
    obtain ⟨r, rfl, ⟨rfl, hr⟩ | ⟨rfl, hr, hfree⟩⟩ :=
      Net.submit_epochCommand ((hs.draw hid).wf shardMeta) hsubmit
    · exact step_of_calm h ((Net.Calm.draw hs hid).trans ((hs.draw hid).rejected hname hr)) trivial
    obtain ⟨hcalm, hp⟩ := hs.write hname hfresh hid (.delete key)
      (fun hn => ⟨(hkey hn).1, .inl ⟨rfl, (hkey hn).2⟩⟩) hfree hr
    refine step_of_calm h hcalm
      ⟨hsub, htodo.mono hcalm.frame, mem_cons_self, fun value hp' => ?_⟩
    by_cases hk : key = recordKey c.txn
    · rw [hp hk] at hp'
      cases hp'
      rfl
    -- Another key was written, and the new id owns nothing under the record key.
    have howner := hs.owner_ne hname hfresh
    have hsame : ((n.draw turn.id).set shardMeta r).view shardMeta (recordKey c.txn) =
        n.view shardMeta (recordKey c.txn) := by
      rw [Net.view_set_self, hr]
      exact (Net.view_write (hs.wf shardMeta) (.delete key) hfree _).trans (if_neg hk)
    rw [hsame] at hp'
    exact absurd (KeyState.owner_of_pending hp') howner
  next version id epoch rows heq =>
    rw [heq] at hpc
    obtain ⟨hsub, htodo, hid, hclears⟩ := hpc
    obtain ⟨ok, hsubmit, rfl⟩ := send_eq_some hnext
    obtain ⟨r, rfl, ⟨rfl, hr⟩ | ⟨rfl, hr, -⟩⟩ := Net.submit_epochCommand (hs.wf shardMeta) hsubmit
    · exact step_of_calm h (hrejected hr) trivial
    have hcalm := hs.clear hid hclears hr
    exact step_of_calm h hcalm ⟨hsub, htodo.mono hcalm.frame⟩
  all_goals cases hnext

end Pass

namespace Cluster

section Runs

variable [TextParsers] (c : CrossShard)

/-- The parsers read back the id and the records of the transaction. -/
structure ReadBack : Prop where
  uuid : TextParsers.uuid c.txn.toText = some c.txn
  json : ∀ enabled, TextParsers.pendingTxn (c.record enabled).json = some (c.record enabled)

/-- `commit_cross_shard` is called: the transaction has intents in the groups and
neither versions nor a record, and no pass has begun. -/
structure Begins (s : Cluster) : Prop where
  wf : ∀ g, (s.net.groups g).kv.WF
  random : c.txn.version ≠ 5
  unused : c.txn ∉ s.net.used
  nameless : ∀ j, c.Names j →
    (s.net.view shardMeta j).pending = none ∧ (s.net.view shardMeta j).commits = []
  history : ∀ kv ∈ s.net.metaHistory, ∀ j, c.Names j → (kv.view j).commits = []
  invisible : c.Invisible s.net
  coord : s.coord = .preparing c.targets.entries
  passes : ∀ i, s.passes i = ⟨.empty, [], .idle⟩

variable [Hashes] [Serde]

/-- Ids are drawn for one purpose only. Commands of nobody here are those of other
transactions, leave the transaction's record and do not write a control record
over one of its intents. -/
def Allowed (s : Cluster) : Cluster.Label → Prop
  | .pass i _ =>
    ∀ txn key record rest rows, (s.passes i).pc = .driving txn key record rest rows →
      txn ∉ s.net.used
  | .other g cmd index =>
    ¬ cmd.actsFor c.txn ∧
      (∀ j value, (s.net.view g j).pending = some (c.txn, value) → ¬ cmd.records j) ∧
      ∀ n ok, s.net.submit g cmd index = some (n, ok) → g = shardMeta →
        ∀ j, c.Names j → n.view shardMeta j = s.net.view shardMeta j
  | _ => True

def Step : Cluster → Cluster.Label → Cluster → Prop :=
  Guarded (fun s l s' => s.next c l = some s') (Allowed c)

structure Sound (n₀ : Net) (s : Cluster) : Prop where
  net : Net.Sound c n₀ s.net
  coord : s.coord.Sound c n₀ s.net
  passes : ∀ i, (s.passes i).Sound c n₀ s.net

variable {c} {s s' : Cluster}

section

omit [Hashes] [Serde]

theorem names_recordKey (h : ReadBack c) : c.Names (recordKey c.txn) := by
  have hkey : recordKey c.txn = (0 :: ascii "txn2pc") ++ (0 :: c.txn.toText) := by
    rw [recordKey, show txn2pcPrefix = (0 :: ascii "txn2pc") ++ [0] from rfl, append_assoc]
    rfl
  refine ⟨⟨?_, ?_⟩, ?_⟩
  · rw [hkey, show txn2pcPrefix = (0 :: ascii "txn2pc") ++ [0] from rfl]
    cases c.txn.toText with
    | nil => exact le_rfl
    | cons b bs =>
      refine (append_left_lt ?_).le
      rw [cons_lt_cons_iff]
      exact .inr ⟨rfl, nil_lt_cons b bs⟩
  · rw [hkey, show txn2pcEnd = (0 :: ascii "txn2pc") ++ [1] from rfl]
    refine append_left_lt ?_
    rw [cons_lt_cons_iff]
    exact .inl (by decide)
  · rw [recordKey, drop_left]
    exact h.uuid

theorem decode_record (h : ReadBack c) (enabled : Bool) :
    PendingTxn.decode (c.record enabled).encode = .ok (c.record enabled) := by
  refine PendingTxn.decode_encode (h.json enabled) fun hne => ?_
  unfold CrossShard.record at hne ⊢
  simp only at hne ⊢
  split at hne
  next hepochs =>
    rw [PendingTxn.ValidEpochs, if_pos rfl]
    simp only [if_pos hepochs]
    refine ⟨(length_map _).symm, fun p hp => ?_⟩
    exact Option.isSome_iff_ne_none.mpr (OrdMap.mem_keys.mp hp)
  · exact absurd rfl hne

theorem sound_of_begins (hread : ReadBack c) (h : Begins c s) : Sound c s.net s := by
  have hnot : ¬ c.Recorded s.net := by
    rintro ⟨m, hm, -⟩
    rw [(h.nameless _ (names_recordKey hread)).2] at hm
    cases hm
  refine ⟨⟨h.wf, h.unused, fun j hj id value hp => ?_, fun j hj m hm => ?_,
    fun kv hkv j hj m hm => ?_, fun _ => h.invisible, fun hrec => absurd hrec hnot⟩, ?_, fun i => ?_⟩
  · rw [(h.nameless j hj).1] at hp
    cases hp
  · rw [(h.nameless j hj).2] at hm
    cases hm
  · rw [h.history kv hkv j hj] at hm
    cases hm
  · rw [h.coord]
    exact ⟨hnot, fun g j value hheld => .inl hheld⟩
  · rw [h.passes i]
    refine ⟨fun row hrow => (nomatch hrow), ?_, trivial⟩
    rintro ⟨m, hm, -⟩
    cases hm

end

theorem calm_other (hs : Net.Sound c n₀ n) (hname : c.Names (recordKey c.txn))
    (hver : c.txn.version ≠ 5) (hacts : ¬ cmd.actsFor c.txn)
    (hkeys : ∀ j value, (n.view g j).pending = some (c.txn, value) → ¬ cmd.records j)
    (hnames : g = shardMeta → ∀ j, c.Names j → n'.view shardMeta j = n.view shardMeta j)
    (h : n.submit g cmd index = some (n', ok)) : Net.Calm c n₀ n n' := by
  obtain ⟨r, response, happly, -, rfl⟩ := Net.submit_eq_some h
  have ha := Group.apply_acts (hs.wf g) happly
  refine hs.other hname ⟨Acts.wf (hs.wf g) ha, fun j => Acts.commits (hs.wf g) hver hacts ha j,
    fun j value hp => ?_⟩ fun hg j hj => ?_
  · exact Acts.view_of_pending (hs.wf g) hver (hkeys j value hp) hacts hp ha
  subst hg
  have hview := hnames rfl j hj
  rwa [Net.view_set_self] at hview

theorem Sound.step (hread : ReadBack c) (hver : c.txn.version ≠ 5) (h : Sound c n₀ s)
    (hstep : Step c s l s') : Sound c n₀ s' := by
  obtain ⟨hallowed, hnext⟩ := hstep
  have hname := names_recordKey hread
  cases l with
  | coord turn =>
    obtain ⟨⟨n, pc⟩, hn, rfl⟩ := Option.map_eq_some_iff.mp hnext
    obtain ⟨hnet, hframe, hcoord⟩ := Coord.Sound.step h.net hname h.coord hn
    exact ⟨hnet, hcoord, fun i => (h.passes i).mono hframe⟩
  | coordError =>
    cases hnext
    exact ⟨h.net, Coord.sound_error h.coord, h.passes⟩
  | coordCrash =>
    cases hnext
    exact ⟨h.net, trivial, h.passes⟩
  | scan i k =>
    simp only [next] at hnext
    split at hnext
    next kv hidle hkv =>
      split at hnext
      next rows hscan =>
        cases hnext
        refine ⟨h.net, h.coord, fun i' => ?_⟩
        by_cases hi : i' = i
        · subst hi
          simp only [setPass, Function.update_self]
          exact Pass.sound_scan h.net hname (mem_of_getElem? hkv) hscan
        · simp only [setPass, Function.update_of_ne hi]
          exact h.passes i'
      · cases hnext
    · cases hnext
  | pass i turn =>
    obtain ⟨⟨n, p⟩, hn, rfl⟩ := Option.map_eq_some_iff.mp hnext
    obtain ⟨hcalm, hp⟩ := Pass.Sound.step h.net hname (decode_record hread) (h.passes i) hallowed hn
    refine ⟨hcalm.sound, h.coord.calm hcalm, fun i' => ?_⟩
    by_cases hi : i' = i
    · subst hi
      simp only [setPass, Function.update_self]
      exact hp
    · simp only [setPass, Function.update_of_ne hi]
      exact (h.passes i').mono hcalm.frame
  | passError i =>
    cases hnext
    refine ⟨h.net, h.coord, fun i' => ?_⟩
    by_cases hi : i' = i
    · subst hi
      simp only [setPass, Function.update_self]
      exact ⟨(h.passes i').rows, (h.passes i').found, trivial⟩
    · simp only [setPass, Function.update_of_ne hi]
      exact h.passes i'
  | other g cmd index =>
    obtain ⟨⟨n, ok⟩, hn, rfl⟩ := Option.map_eq_some_iff.mp hnext
    obtain ⟨hacts, hkeys, hnames⟩ := hallowed
    have hcalm := calm_other h.net hname hver hacts hkeys (hnames n ok hn) hn
    exact ⟨hcalm.sound, h.coord.calm hcalm, fun i => (h.passes i).mono hcalm.frame⟩

theorem sound_of_run (hread : ReadBack c) (hbegins : Begins c s) (hrun : Run (Step c) s ls s') :
    Sound c s.net s' :=
  hrun.invariant (sound_of_begins hread hbegins) fun _ _ _ h hstep =>
    h.step hread hbegins.random hstep

/-- In every run of a coordinator, any number of recovery passes and other commands:
while the record was not committed no group has a version of the transaction. Once
it was, every write the transaction had when its commit began is pending or visible
at the commit timestamp, and once a pass is done that scanned a copy made after it,
all of them are visible in every participant, also if the record was cleared. -/
theorem commit_atomic (hread : ReadBack c) (hbegins : Begins c s) {ls : List Cluster.Label}
    (hrun : Run (Step c) s ls s') :
    (¬ c.Recorded s'.net → c.Invisible s'.net) ∧
    (c.Recorded s'.net → c.Intact s.net s'.net) ∧
    ∀ i, (s'.passes i).pc = .done → c.RecordedIn (s'.passes i).copy →
      c.Visible s.net s'.net := by
  have h := sound_of_run hread hbegins hrun
  refine ⟨h.net.silent, h.net.intact, fun i hdone hrec => ?_⟩
  have hpc := (h.passes i).pc
  rw [hdone] at hpc
  rcases (h.passes i).found hrec with hmem | hv
  · exact (hpc hmem).resolve_left nofun
  · exact hv

end Runs

/-! ## Concrete runs -/

def sampleCommit : CrossShard where
  txn := 7
  targets := (OrdMap.empty.insert (ascii "s1") ⟨0, [[1]]⟩).insert (ascii "s2") ⟨0, [[1]]⟩
  commitTs := 5

def sampleReplica (name : Bytes) : Replica :=
  ⟨⟨name, Table.empty.replayIntent sampleCommit.txn [1] (some (.data [9])) 0, false, none⟩, 0⟩

def sampleCluster : Cluster where
  net :=
    { groups := fun g =>
        if g = ascii "s1" ∨ g = ascii "s2" then sampleReplica g else .empty g none
      metaHistory := [.empty]
      used := [] }
  coord := .preparing sampleCommit.targets.entries
  passes := fun _ => ⟨.empty, [], .idle⟩

end Cluster

/-- Parsers that know the texts of one transaction. -/
scoped instance Fixed.parsers : TextParsers where
  pendingTxn b :=
    if b = (Cluster.sampleCommit.record true).json then some (Cluster.sampleCommit.record true)
    else if b = (Cluster.sampleCommit.record false).json then
      some (Cluster.sampleCommit.record false)
    else none
  uuid b := if b = Cluster.sampleCommit.txn.toText then some Cluster.sampleCommit.txn else none

namespace Cluster

open Fixed

theorem readBack_sample : ReadBack sampleCommit := by
  refine ⟨by decide +kernel, fun enabled => ?_⟩
  cases enabled
  · decide +kernel
  · decide +kernel

theorem view_sample (g j : Bytes) : (sampleCluster.net.view g j).commits = [] ∧
    (g = shardMeta → (sampleCluster.net.view g j).pending = none) := by
  have hgroup : ∀ g, sampleCluster.net.view g j =
      if g = ascii "s1" ∨ g = ascii "s2" then (sampleReplica g).kv.view j else .empty := by
    intro g
    show (if g = ascii "s1" ∨ g = ascii "s2" then sampleReplica g else .empty g none).kv.view j = _
    split <;> rfl
  rw [hgroup]
  constructor
  · split
    · show ((Table.empty.replayIntent sampleCommit.txn [1]
        (some (Raft.Value.data [9])) 0).view j).commits = []
      rw [Table.view_replayIntent Table.wf_empty]
      split
      · exact KeyState.commits_write
      · rfl
    · rfl
  · rintro rfl
    rfl

theorem begins_sample : Begins sampleCommit sampleCluster where
  wf g := by
    show (if g = ascii "s1" ∨ g = ascii "s2" then sampleReplica g else .empty g none).kv.WF
    split
    · exact Table.WF.replayIntent Table.wf_empty
    · exact Table.wf_empty
  random := by decide
  unused := nofun
  nameless j _ := ⟨(view_sample shardMeta j).2 rfl, (view_sample shardMeta j).1⟩
  history kv hkv j _ := by
    rw [mem_singleton.mp hkv]
    rfl
  invisible g j m hm := by
    rw [(view_sample g j).1] at hm
    cases hm
  coord := rfl
  passes _ := rfl

/-- A check of the steps that need no look at other commands. -/
def allowedCheck (s : Cluster) : Cluster.Label → Bool
  | .pass i _ =>
    match (s.passes i).pc with
    | .driving txn _ _ _ _ => txn ∉ s.net.used
    | _ => true
  | .other _ _ _ => false
  | _ => true

theorem allowed_of_check (h : allowedCheck s l = true) : Allowed c s l := by
  cases l with
  | pass i turn =>
    intro txn key record rest rows hpc
    simp only [allowedCheck, hpc] at h
    exact of_decide_eq_true h
  | other g cmd index => cases h
  | _ => trivial

theorem run_of_checked
    (h : execOk (fun s l => s.next c l) (fun s l => allowedCheck s l = true) s ls = some s') :
    Run (Step c) s ls s' :=
  (run_of_execOk h).mono fun _ _ _ hstep => ⟨allowed_of_check hstep.1, hstep.2⟩

/-- Prepare both groups, record the decision. -/
def sampleDecision : List Cluster.Label :=
  [.coord ⟨false, 0, 0, 1⟩, .coord ⟨false, 0, 0, 1⟩, .coord ⟨false, 0, 0, 0⟩,
    .coord ⟨false, 100, 0, 1⟩, .coord ⟨false, 0, 0, 2⟩]

/-- A pass that finds one record and handles it. -/
def samplePass : List Cluster.Label :=
  [.scan 0 0, .pass 0 ⟨false, 0, 0, 0⟩, .pass 0 ⟨false, 0, 0, 2⟩, .pass 0 ⟨false, 0, 0, 2⟩,
    .pass 0 ⟨false, 0, 0, 0⟩, .pass 0 ⟨false, 200, 0, 3⟩, .pass 0 ⟨false, 0, 0, 4⟩,
    .pass 0 ⟨false, 0, 0, 0⟩]

/-- The coordinator stops once the decision is recorded. A pass completes, and a second one, which
finds the record cleared. -/
theorem commit_recovered :
    ∃ s', Run (Step sampleCommit) sampleCluster
        (sampleDecision ++ [.coordCrash] ++ samplePass ++ [.scan 1 0, .pass 1 ⟨false, 0, 0, 0⟩]) s' ∧
      (s'.passes 1).scanned = [] ∧ sampleCommit.Visible sampleCluster.net s'.net := by
  obtain ⟨s', hs', hdone, hempty, m, hm, hvalue⟩ : ∃ s', execOk (fun s l => s.next sampleCommit l)
      (fun s l => allowedCheck s l = true) sampleCluster
      (sampleDecision ++ [.coordCrash] ++ samplePass ++ [.scan 1 0, .pass 1 ⟨false, 0, 0, 0⟩]) =
        some s' ∧
        (match (s'.passes 1).pc with | .done => true | _ => false) = true ∧
        (s'.passes 1).scanned.isEmpty = true ∧
        ∃ m ∈ ((s'.passes 1).copy.view (recordKey sampleCommit.txn)).commits,
          m.value = some (.data (sampleCommit.record false).encode) := by
    decide +kernel
  have hpc : (s'.passes 1).pc = .done := by
    split at hdone
    · assumption
    · cases hdone
  have hrun' := run_of_checked hs'
  obtain ⟨-, -, hpass⟩ := commit_atomic readBack_sample begins_sample hrun'
  exact ⟨s', hrun', isEmpty_iff.mp hempty, hpass 1 hpc ⟨m, hm, false, hvalue⟩⟩

/-- A pass scans before the record is committed, and completes after it; the
coordinator then stops. -/
theorem pass_completes_without_record :
    ∃ s', Run (Step sampleCommit) sampleCluster
        ([.scan 0 0] ++ sampleDecision ++ [.pass 0 ⟨false, 0, 0, 0⟩, .coordCrash]) s' ∧
      sampleCommit.Recorded s'.net ∧ (s'.passes 0).pc = .done ∧
      ¬ sampleCommit.Visible sampleCluster.net s'.net := by
  obtain ⟨s', hs', ⟨m, hm, hvalue⟩, hdone, hempty⟩ :
      ∃ s', execOk (fun s l => s.next sampleCommit l) (fun s l => allowedCheck s l = true)
        sampleCluster ([.scan 0 0] ++ sampleDecision ++
          [.pass 0 ⟨false, 0, 0, 0⟩, .coordCrash]) = some s' ∧
        (∃ m ∈ (s'.net.view shardMeta (recordKey sampleCommit.txn)).commits,
          m.value = some (.data (sampleCommit.record false).encode)) ∧
        (match (s'.passes 0).pc with | .done => true | _ => false) = true ∧
        (s'.net.view (ascii "s1") [1]).commits.isEmpty := by
    decide +kernel
  refine ⟨s', run_of_checked hs', ⟨m, hm, false, hvalue⟩, ?_, fun hvisible => ?_⟩
  · split at hdone
    · assumption
    · cases hdone
  have hheld : (sampleCluster.net.view (ascii "s1") [1]).pending =
      some (sampleCommit.txn, some (.data [9])) := by
    decide +kernel
  have hv := hvisible (ascii "s1") (by decide) [1] _ hheld
  rw [isEmpty_iff.mp hempty] at hv
  cases hv

end Cluster

end NodusDb
