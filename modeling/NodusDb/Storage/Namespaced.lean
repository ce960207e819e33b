import NodusDb.Raft.Records

/-!
# Namespaces of one store

Several groups share one store, each through a view that puts its name before every key and derives
its own transaction ids.

* `namespaces_isolated`: in every interleaving of two namespaces, each gets the replies it would get
  alone.
-/

namespace NodusDb

open List

variable {V : Type}

/-- `Uuid::NAMESPACE_OID`. -/
def namespaceOid : Uuid := (0x6ba7b8129dad11d180b400c04fd430c8 : Uuid)

structure NamespacedKvEngine where
  nsPrefix : Bytes
  deriving DecidableEq

namespace NamespacedKvEngine

def new (name : Bytes) : NamespacedKvEngine := ⟨name ++ [0]⟩

def physicalKey (ns : NamespacedKvEngine) (key : Bytes) : Bytes := ns.nsPrefix ++ key

/-- The key without the name of the group; a foreign key stays as it is. -/
def logicalKey (ns : NamespacedKvEngine) (key : Bytes) : Bytes :=
  if ns.nsPrefix <+: key then key.drop ns.nsPrefix.length else key

/-- The derived id, for a way to derive an id from an id and a name. -/
def namespacedTxn (newV5 : Uuid → Bytes → Uuid) (ns : NamespacedKvEngine) (txnId : TxnId) : TxnId :=
  newV5 (newV5 namespaceOid ns.nsPrefix) txnId.asBytes

/-- A call of a client of the engine. A write carries the time it is made at. -/
inductive Call (V : Type)
  | get (key : Bytes) (readTs : Nat)
  | scan (range : KeyRange) (readTs : Nat)
  | scanVersions (range : KeyRange) (sinceTs readTs : Nat)
  | writeIntent (txnId : TxnId) (key : Bytes) (value : V) (now : Nat)
  | deleteIntent (txnId : TxnId) (key : Bytes) (now : Nat)
  | writeIntentBatch (txnId : TxnId) (ops : List (IntentOperation V)) (now : Nat)
  | replaceIntent (txnId : TxnId) (key : Bytes) (replacement : IntentReplacement V) (now : Nat)
  | commit (txnId : TxnId) (commitTs : Nat)
  | commitBatch (commits : List (TxnId × Nat))
  | abort (txnId : TxnId)
  | pendingIntentKeys (txnId : TxnId)

inductive Reply (V : Type)
  | value (value : Option V)
  | rows (rows : Except ReadFault (List (KvPair V)))
  | versions (versions : Except ReadFault (List (KvVersion V)))
  | done (result : Except KvError Unit)
  | keys (keys : List Bytes)
  deriving DecidableEq

section Calls

variable (newV5 : Uuid → Bytes → Uuid) (ns : NamespacedKvEngine) (inner : MemKvEngine V)

def get (key : Bytes) (readTs : Nat) : Option V := inner.get (ns.physicalKey key) readTs

def scan (range : KeyRange) (readTs : Nat) : Except ReadFault (List (KvPair V)) :=
  (inner.scan (ns.physicalKey range.start) (ns.physicalKey range.stop) readTs).map fun rows =>
    rows.map fun row => { row with key := ns.logicalKey row.key }

def scanVersions (range : KeyRange) (sinceTs readTs : Nat) :
    Except ReadFault (List (KvVersion V)) :=
  (inner.scanVersions (ns.physicalKey range.start) (ns.physicalKey range.stop) sinceTs readTs).map
    fun versions => versions.map fun version => { version with key := ns.logicalKey version.key }

/-- A failed mutation leaves the engine as it was. -/
def mutate (result : Except KvError (MemKvEngine V)) : MemKvEngine V × Reply V :=
  match result with
  | .ok inner => (inner, .done (.ok ()))
  | .error e => (inner, .done (.error e))

def physicalOp : IntentOperation V → IntentOperation V
  | .put key value => .put (ns.physicalKey key) value
  | .delete key => .delete (ns.physicalKey key)

def pendingIntentKeys (txnId : TxnId) : List Bytes :=
  (inner.keysOf (namespacedTxn newV5 ns txnId)).map ns.logicalKey

def exec : Call V → MemKvEngine V × Reply V
  | .get key readTs => (inner, .value (get ns inner key readTs))
  | .scan range readTs => (inner, .rows (scan ns inner range readTs))
  | .scanVersions range sinceTs readTs =>
    (inner, .versions (scanVersions ns inner range sinceTs readTs))
  | .writeIntent txnId key value now =>
    mutate inner (inner.writeIntentImpl (namespacedTxn newV5 ns txnId) (ns.physicalKey key)
      (some value) now)
  | .deleteIntent txnId key now =>
    mutate inner (inner.writeIntentImpl (namespacedTxn newV5 ns txnId) (ns.physicalKey key) none
      now)
  | .writeIntentBatch txnId ops now =>
    mutate inner (inner.writeIntentBatch (namespacedTxn newV5 ns txnId) (ops.map ns.physicalOp) now)
  | .replaceIntent txnId key replacement now =>
    let (inner, result) := inner.replaceIntent (namespacedTxn newV5 ns txnId) (ns.physicalKey key)
      replacement now
    (inner, .done result)
  | .commit txnId commitTs =>
    (inner.commit (namespacedTxn newV5 ns txnId) commitTs, .done (.ok ()))
  | .commitBatch commits =>
    (inner.commitBatch (commits.map fun c => (namespacedTxn newV5 ns c.1, c.2)), .done (.ok ()))
  | .abort txnId => (inner.abort (namespacedTxn newV5 ns txnId), .done (.ok ()))
  | .pendingIntentKeys txnId => (inner, .keys (pendingIntentKeys newV5 ns inner txnId))

end Calls

section Part

variable (newV5 : Uuid → Bytes → Uuid) (ns : NamespacedKvEngine)

/-- Two engines with the same chains and intents in a namespace. -/
structure SamePart (s t : MemKvEngine V) : Prop where
  store : ∀ key, s.store.get? (ns.physicalKey key) = t.store.get? (ns.physicalKey key)
  intents : ∀ txnId, s.intents.get? (namespacedTxn newV5 ns txnId) =
    t.intents.get? (namespacedTxn newV5 ns txnId)

/-- The namespace's transactions have intents on its keys only. -/
def InScope (s : MemKvEngine V) : Prop :=
  ∀ txnId keys, s.intents.get? (namespacedTxn newV5 ns txnId) = some keys →
    ∀ e ∈ keys, ns.nsPrefix <+: e.1

/-- The change is in the namespace's part only. -/
structure Touches (s s' : MemKvEngine V) : Prop where
  store : ∀ key, ¬ ns.nsPrefix <+: key → s'.store.get? key = s.store.get? key
  intents : ∀ id, (∀ txnId, id ≠ namespacedTxn newV5 ns txnId) →
    s'.intents.get? id = s.intents.get? id

/-- Mutations that take an engine to a second one, and another engine with the
same part to a third one. -/
structure Steps (s s' t' : MemKvEngine V) : Prop where
  same : SamePart newV5 ns s' t'
  inScope : InScope newV5 ns s'
  touches : Touches newV5 ns s s'

variable {newV5 ns} {s t u s' t' : MemKvEngine V} {txnId : TxnId} {key : Bytes}

theorem SamePart.refl (s : MemKvEngine V) : SamePart newV5 ns s s := ⟨fun _ => rfl, fun _ => rfl⟩

theorem SamePart.inScope (h : SamePart newV5 ns s t) (ht : InScope newV5 ns t) :
    InScope newV5 ns s :=
  fun txnId keys hkeys => ht txnId keys (by rw [← h.intents, hkeys])

theorem Steps.refl (h : SamePart newV5 ns s t) (hs : InScope newV5 ns s) : Steps newV5 ns s s t :=
  ⟨h, hs, fun _ _ => rfl, fun _ _ => rfl⟩

theorem isPrefix_physicalKey (key : Bytes) : ns.nsPrefix <+: ns.physicalKey key :=
  prefix_append _ _

theorem physicalKey_of_isPrefix (h : ns.nsPrefix <+: key) :
    ∃ logical, key = ns.physicalKey logical := by
  obtain ⟨logical, rfl⟩ := h
  exact ⟨logical, rfl⟩

theorem Steps.setChain (h : Steps newV5 ns u s t) (hkey : ns.nsPrefix <+: key)
    (chain : VersionChain V) :
    Steps newV5 ns u ⟨s.store.insert key chain, s.intents⟩
      ⟨t.store.insert key chain, t.intents⟩ := by
  refine ⟨⟨fun j => ?_, h.same.intents⟩, h.inScope, fun j hj => ?_, h.touches.intents⟩
  · rw [OrdMap.get?_insert, OrdMap.get?_insert, h.same.store]
  rw [OrdMap.get?_insert, if_neg, h.touches.store j hj]
  rintro rfl
  exact hj hkey

theorem Steps.chainAt (h : Steps newV5 ns u s t) (hkey : ns.nsPrefix <+: key) :
    s.chainAt key = t.chainAt key := by
  obtain ⟨logical, rfl⟩ := physicalKey_of_isPrefix hkey
  rw [Table.chainAt, h.same.store, Table.chainAt]

theorem resolveKeys_same (h : Steps newV5 ns u s t)
    (f : VersionChain V → Except MvccError (VersionChain V)) {keys : List (Bytes × Nat)}
    (hkeys : ∀ e ∈ keys, ns.nsPrefix <+: e.1) :
    Steps newV5 ns u ⟨Table.resolveKeys f s.store keys, s.intents⟩
      ⟨Table.resolveKeys f t.store keys, t.intents⟩ := by
  induction keys generalizing s t with
  | nil => exact h
  | cons e keys ih =>
    obtain ⟨he, hkeys⟩ := forall_mem_cons.mp hkeys
    have hone : Steps newV5 ns u ⟨Table.resolveKey f s.store e.1, s.intents⟩
        ⟨Table.resolveKey f t.store e.1, t.intents⟩ := by
      obtain ⟨logical, hlogical⟩ := physicalKey_of_isPrefix he
      unfold Table.resolveKey
      rw [hlogical, h.same.store]
      split
      · split
        next chain _ => exact h.setChain (isPrefix_physicalKey logical) chain
        · exact h
      · exact h
    exact ih hone hkeys

/-! ## Mutations -/

variable (newV5 ns) in
inductive SameResult (s : MemKvEngine V) :
    Except KvError (MemKvEngine V) → Except KvError (MemKvEngine V) → Prop
  | ok {s' t' : MemKvEngine V} (h : Steps newV5 ns s s' t') : SameResult s (.ok s') (.ok t')
  | error (e : KvError) : SameResult s (.error e) (.error e)

section Txn

variable {id : TxnId} (hid : id = namespacedTxn newV5 ns txnId)

include hid

section

variable (h : Steps newV5 ns u s t)
include h

theorem Steps.setIntents {keys : List (Bytes × Nat)} (hkeys : ∀ e ∈ keys, ns.nsPrefix <+: e.1) :
    Steps newV5 ns u ⟨s.store, s.intents.insert id keys⟩
      ⟨t.store, t.intents.insert id keys⟩ := by
  subst hid
  refine ⟨⟨h.same.store, fun v => ?_⟩, fun v keys' hv => ?_, h.touches.store, fun id hid => ?_⟩
  · simp only [OrdMap.get?_insert, h.same.intents]
  · simp only [OrdMap.get?_insert] at hv
    split at hv
    · cases hv
      exact hkeys
    · exact h.inScope v keys' hv
  · rw [OrdMap.get?_insert, if_neg (hid txnId), h.touches.intents id hid]

theorem Steps.eraseIntents :
    Steps newV5 ns u ⟨s.store, s.intents.erase id⟩
      ⟨t.store, t.intents.erase id⟩ := by
  subst hid
  refine ⟨⟨h.same.store, fun v => ?_⟩, fun v keys' hv => ?_, h.touches.store, fun id hid => ?_⟩
  · simp only [OrdMap.get?_erase, h.same.intents]
  · simp only [OrdMap.get?_erase] at hv
    split at hv
    · cases hv
    · exact h.inScope v keys' hv
  · rw [OrdMap.get?_erase, if_neg (hid txnId), h.touches.intents id hid]

theorem Steps.pushIntent (hkey : ns.nsPrefix <+: key) (now : Nat) :
    Steps newV5 ns u
      ⟨s.store, Table.pushIntent s.intents id key now⟩
      ⟨t.store, Table.pushIntent t.intents id key now⟩ := by
  subst hid
  unfold Table.pushIntent
  rw [← h.same.intents]
  refine h.setIntents rfl fun e he => ?_
  rcases mem_append.mp he with he | he
  · cases hget : s.intents.get? (namespacedTxn newV5 ns txnId) with
    | none =>
      rw [hget] at he
      cases he
    | some keys =>
      rw [hget] at he
      exact h.inScope txnId keys hget e he
  · rw [mem_singleton.mp he]
    exact hkey

theorem write_same (hkey : ns.nsPrefix <+: key) (value : Option V) (now : Nat) :
    SameResult newV5 ns u (s.writeIntentImpl id key value now)
      (t.writeIntentImpl id key value now) := by
  unfold Table.writeIntentImpl
  rw [h.chainAt hkey]
  split
  next chain _ => exact .ok ((h.setChain hkey chain).pushIntent hid hkey now)
  · exact .error _

theorem foldlM_write_same {ops : List (IntentOperation V)}
    (hops : ∀ op ∈ ops, ns.nsPrefix <+: op.key) (now : Nat) :
    SameResult newV5 ns u
      (ops.foldlM (fun s op => s.writeIntentImpl id op.key op.value now) s)
      (ops.foldlM (fun s op => s.writeIntentImpl id op.key op.value now) t) := by
  induction ops generalizing s t with
  | nil => exact .ok h
  | cons op ops ih =>
    obtain ⟨hop, hops⟩ := forall_mem_cons.mp hops
    rw [foldlM_cons, foldlM_cons]
    generalize hr : s.writeIntentImpl id op.key op.value now = r
    generalize hr' : t.writeIntentImpl id op.key op.value now = r'
    have hfirst := write_same hid h hop op.value now
    rw [hr, hr'] at hfirst
    cases hfirst with
    | ok hfirst => exact ih hfirst hops
    | error e => exact .error e

theorem batch_same {ops : List (IntentOperation V)} (hops : ∀ op ∈ ops, ns.nsPrefix <+: op.key)
    (now : Nat) :
    SameResult newV5 ns u (s.writeIntentBatch id ops now)
      (t.writeIntentBatch id ops now) := by
  have hconflicts : s.batchConflicts id ops = t.batchConflicts id ops := by
    rw [Table.batchConflicts, Table.batchConflicts, Bool.eq_iff_iff]
    simp only [any_eq_true]
    refine exists_congr fun op => and_congr_right fun hop => ?_
    obtain ⟨logical, hlogical⟩ := physicalKey_of_isPrefix (hops op hop)
    rw [hlogical, h.same.store]
  unfold Table.writeIntentBatch
  rw [hconflicts]
  split
  · exact .error _
  · exact foldlM_write_same hid h hops now

end

theorem replace_same (hkey : ns.nsPrefix <+: key) (h : Steps newV5 ns u s t)
    (replacement : IntentReplacement V) (now : Nat) :
    Steps newV5 ns u (s.replaceIntent id key replacement now).1
        (t.replaceIntent id key replacement now).1 ∧
      (s.replaceIntent id key replacement now).2 =
        (t.replaceIntent id key replacement now).2 := by
  have hwith : ∀ chain value, Steps newV5 ns u
        (s.replaceWith id key chain value now).1
        (t.replaceWith id key chain value now).1 ∧
      (s.replaceWith id key chain value now).2 =
        (t.replaceWith id key chain value now).2 := by
    intro chain value
    unfold Table.replaceWith
    split
    next chain' _ => exact ⟨(h.setChain hkey chain').pushIntent hid hkey now, rfl⟩
    · exact ⟨h.setChain hkey chain, rfl⟩
  unfold Table.replaceIntent
  rw [h.chainAt hkey]
  cases replacement with
  | put value | delete => exact hwith _ _
  | clear =>
    refine ⟨?_, rfl⟩
    have hchain := h.setChain hkey ((t.chainAt key).dropIntentsOf id)
    subst hid
    simp only
    rw [← h.same.intents]
    split
    next keys hget =>
      split
      · exact hchain.eraseIntents rfl
      refine hchain.setIntents rfl fun e he => ?_
      exact h.inScope txnId keys hget e (mem_of_mem_filter he)
    · exact hchain

theorem resolve_same (h : Steps newV5 ns u s t)
    (f : VersionChain V → Except MvccError (VersionChain V)) :
    Steps newV5 ns u (s.resolve id f) (t.resolve id f) := by
  subst hid
  unfold Table.resolve
  rw [← h.same.intents]
  split
  next keys hget => exact (resolveKeys_same h f (h.inScope txnId keys hget)).eraseIntents rfl
  · exact h

end Txn

theorem commitBatch_same (h : Steps newV5 ns u s t) (commits : List (TxnId × Nat)) :
    Steps newV5 ns u (s.commitBatch (commits.map fun c => (namespacedTxn newV5 ns c.1, c.2)))
      (t.commitBatch (commits.map fun c => (namespacedTxn newV5 ns c.1, c.2))) := by
  induction commits generalizing s t with
  | nil => exact h
  | cons c commits ih => exact ih (resolve_same rfl h _)

/-! ## Reads -/

variable {a b : Bytes}

theorem isPrefix_of_between (ha : p ++ a ≤ k) (hb : k < p ++ b) : p <+: k := by
  induction p generalizing k with
  | nil => exact nil_prefix
  | cons x p ih =>
    cases k with
    | nil => exact absurd ha (not_le.mpr (nil_lt_cons _ _))
    | cons y k =>
      rw [cons_append, ← not_lt, cons_lt_cons_iff, not_or, not_and] at ha
      rw [cons_append, cons_lt_cons_iff] at hb
      obtain ⟨rfl, hlt⟩ := hb.resolve_left ha.1
      exact cons_prefix_cons.mpr ⟨rfl, ih (not_lt.mp (ha.2 rfl)) hlt⟩

theorem rangeEntries_same (h : SamePart newV5 ns s t) (start stop : Bytes) :
    rangeEntries s.store (ns.physicalKey start) (ns.physicalKey stop) =
      rangeEntries t.store (ns.physicalKey start) (ns.physicalKey stop) := by
  have hmem : ∀ e, e ∈ s.store.range (ns.physicalKey start) (ns.physicalKey stop) ↔
      e ∈ t.store.range (ns.physicalKey start) (ns.physicalKey stop) := by
    rintro ⟨key, chain⟩
    rw [OrdMap.mem_range, OrdMap.mem_range]
    refine and_congr_left fun hin => ?_
    obtain ⟨logical, rfl⟩ := physicalKey_of_isPrefix (isPrefix_of_between hin.1 hin.2)
    rw [h.store]
  have hrange : s.store.range (ns.physicalKey start) (ns.physicalKey stop) =
      t.store.range (ns.physicalKey start) (ns.physicalKey stop) :=
    eq_of_sorted_of_mem (s.store.sorted.sublist filter_sublist)
      (t.store.sorted.sublist filter_sublist) hmem
  rw [rangeEntries, hrange, rangeEntries]

/-- The rows are what point reads return for the keys of a range, in key order. -/
structure ReadsOf (get : Bytes → Option V) (range : KeyRange) (rows : List (KvPair V)) : Prop where
  sorted : rows.Pairwise fun a b => a.key < b.key
  sound : ∀ row ∈ rows, range.Contains row.key ∧ get row.key = some row.value
  complete : ∀ key value, range.Contains key → get key = some value →
    ∃ row ∈ rows, row.key = key ∧ row.value = value

theorem readsOf_scan (inner : MemKvEngine V) (range : KeyRange) (hle : range.start ≤ range.stop)
    (readTs : Nat) : ∃ rows, inner.scan range.start range.stop readTs = .ok rows ∧
      ReadsOf (inner.get · readTs) range rows := by
  obtain ⟨rows, hscan, hsorted, hmem⟩ := inner.scan_spec hle readTs
  refine ⟨rows, hscan, hsorted, fun row hrow => ?_, fun key value hin hget => ?_⟩
  · obtain ⟨hin, e, he, hvalue, -⟩ := (hmem row).mp hrow
    exact ⟨hin, MemKvEngine.get_eq_some_iff.mpr ⟨e, he, hvalue⟩⟩
  · obtain ⟨e, he, hvalue⟩ := MemKvEngine.get_eq_some_iff.mp hget
    exact ⟨⟨key, value, e.version⟩, (hmem _).mpr ⟨hin, e, he, hvalue, rfl⟩, rfl, rfl⟩

theorem physicalKey_lt : ns.physicalKey a < ns.physicalKey b ↔ a < b := by
  unfold physicalKey
  induction ns.nsPrefix with
  | nil => rfl
  | cons x p ih => simpa [cons_lt_cons_iff] using ih

theorem physicalKey_le : ns.physicalKey a ≤ ns.physicalKey b ↔ a ≤ b := by
  rw [← not_lt, physicalKey_lt, not_lt]

theorem logicalKey_physicalKey (key : Bytes) : ns.logicalKey (ns.physicalKey key) = key := by
  rw [logicalKey, if_pos (isPrefix_physicalKey key), physicalKey, drop_left]

theorem readsOf_namespaced_scan (ns : NamespacedKvEngine) (inner : MemKvEngine V) (range : KeyRange)
    (hle : range.start ≤ range.stop) (readTs : Nat) :
    ∃ rows, ns.scan inner range readTs = .ok rows ∧
      ReadsOf (ns.get inner · readTs) range rows := by
  obtain ⟨rows, hscan, hreads⟩ := readsOf_scan inner
    ⟨ns.physicalKey range.start, ns.physicalKey range.stop⟩ (physicalKey_le.mpr hle) readTs
  have hphysical : ∀ row ∈ rows, ∃ key, range.Contains key ∧ row.key = ns.physicalKey key ∧
      ns.get inner key readTs = some row.value := by
    intro row hrow
    obtain ⟨⟨hlo, hhi⟩, hget⟩ := hreads.sound row hrow
    obtain ⟨key, hkey⟩ := physicalKey_of_isPrefix (isPrefix_of_between hlo hhi)
    rw [hkey] at hlo hhi hget
    exact ⟨key, ⟨physicalKey_le.mp hlo, physicalKey_lt.mp hhi⟩, hkey, hget⟩
  refine ⟨_, by rw [scan, hscan]; rfl, pairwise_map.mpr ?_, fun row hrow => ?_,
    fun key value hin hget => ?_⟩
  · refine hreads.sorted.imp_of_mem fun {a b} ha hb hlt => ?_
    obtain ⟨ka, -, hka, -⟩ := hphysical a ha
    obtain ⟨kb, -, hkb, -⟩ := hphysical b hb
    rw [hka, hkb, physicalKey_lt] at hlt
    rw [hka, hkb, logicalKey_physicalKey, logicalKey_physicalKey]
    exact hlt
  · obtain ⟨p, hp, rfl⟩ := mem_map.mp hrow
    obtain ⟨key, hin, hkey, hget⟩ := hphysical p hp
    rw [hkey, logicalKey_physicalKey]
    exact ⟨hin, hget⟩
  · obtain ⟨p, hp, hkey, hvalue⟩ := hreads.complete (ns.physicalKey key) value
      ⟨physicalKey_le.mpr hin.1, physicalKey_lt.mpr hin.2⟩ hget
    refine ⟨_, mem_map_of_mem hp, ?_, hvalue⟩
    rw [hkey, logicalKey_physicalKey]

/-- What a call returns and does depends on the namespace's part only, and it
changes that part only. -/
theorem exec_same (h : SamePart newV5 ns s t) (hs : InScope newV5 ns s) (call : Call V) :
    (exec newV5 ns s call).2 = (exec newV5 ns t call).2 ∧
      Steps newV5 ns s (exec newV5 ns s call).1 (exec newV5 ns t call).1 := by
  have hrefl := Steps.refl h hs
  have hmutate : ∀ {r r' : Except KvError (MemKvEngine V)}, SameResult newV5 ns s r r' →
      (mutate s r).2 = (mutate t r').2 ∧ Steps newV5 ns s (mutate s r).1 (mutate t r').1 := by
    intro r r' hr
    cases hr with
    | ok hsteps => exact ⟨rfl, hsteps⟩
    | error e => exact ⟨rfl, hrefl⟩
  cases call with
  | get key readTs =>
    refine ⟨?_, hrefl⟩
    simp only [exec, get, MemKvEngine.get, h.store]
  | scan range readTs =>
    refine ⟨?_, hrefl⟩
    simp only [exec, scan, MemKvEngine.scan, rangeEntries_same h]
  | scanVersions range sinceTs readTs =>
    refine ⟨?_, hrefl⟩
    simp only [exec, scanVersions, MemKvEngine.scanVersions, rangeEntries_same h]
  | writeIntent txnId key value now =>
    exact hmutate (write_same rfl hrefl (isPrefix_physicalKey key) (some value) now)
  | deleteIntent txnId key now =>
    exact hmutate (write_same rfl hrefl (isPrefix_physicalKey key) none now)
  | writeIntentBatch txnId ops now =>
    refine hmutate (batch_same rfl hrefl (fun op hop => ?_) now)
    obtain ⟨logical, -, rfl⟩ := mem_map.mp hop
    cases logical <;> exact isPrefix_physicalKey _
  | replaceIntent txnId key replacement now =>
    obtain ⟨hsteps, hresult⟩ := replace_same rfl (isPrefix_physicalKey key) hrefl replacement now
    exact ⟨congrArg Reply.done hresult, hsteps⟩
  | commit txnId commitTs | abort txnId => exact ⟨rfl, resolve_same rfl hrefl _⟩
  | commitBatch commits => exact ⟨rfl, commitBatch_same hrefl commits⟩
  | pendingIntentKeys txnId =>
    refine ⟨?_, hrefl⟩
    simp only [exec, pendingIntentKeys, Table.keysOf, h.intents]

theorem Touches.samePart (h : Touches newV5 ns s s')
    (hkeys : ∀ key, ¬ ns.nsPrefix <+: other.physicalKey key)
    (hids : ∀ u v, namespacedTxn newV5 other u ≠ namespacedTxn newV5 ns v) :
    SamePart newV5 other s' s :=
  ⟨fun key => h.store _ (hkeys key), fun u => h.intents _ (hids u)⟩

end Part

section Interleavings

variable {ι : Type} [DecidableEq ι] (newV5 : Uuid → Bytes → Uuid) (name : ι → Bytes)

/-- The replies to calls of several namespaces on one engine. -/
def replies (inner : MemKvEngine V) : List (ι × Call V) → List (ι × Reply V)
  | [] => []
  | (i, call) :: calls =>
    (i, (exec newV5 (new (name i)) inner call).2) ::
      replies (exec newV5 (new (name i)) inner call).1 calls

/-- The replies to the calls of one namespace on its own engine. -/
def ownReplies (ns : NamespacedKvEngine) (inner : MemKvEngine V) : List (Call V) → List (Reply V)
  | [] => []
  | call :: calls =>
    (exec newV5 ns inner call).2 :: ownReplies ns (exec newV5 ns inner call).1 calls

def ofName {α : Type} (i : ι) (items : List (ι × α)) : List α :=
  (items.filter (·.1 = i)).map (·.2)

variable {newV5 name}

theorem replies_eq (hkeys : ∀ i j, i ≠ j → ∀ key,
      ¬ (new (name i)).nsPrefix <+: (new (name j)).physicalKey key)
    (hids : ∀ i j, i ≠ j → ∀ u v,
      namespacedTxn newV5 (new (name i)) u ≠ namespacedTxn newV5 (new (name j)) v)
    {inner : MemKvEngine V} {own : ι → MemKvEngine V}
    (hsame : ∀ i, SamePart newV5 (new (name i)) inner (own i))
    (hscope : ∀ i, InScope newV5 (new (name i)) inner) (calls : List (ι × Call V)) (i : ι) :
    ofName i (replies newV5 name inner calls) =
      ownReplies newV5 (new (name i)) (own i) (ofName i calls) := by
  induction calls generalizing inner own with
  | nil => rfl
  | cons head calls ih =>
    obtain ⟨j, call⟩ := head
    obtain ⟨hreply, hsteps⟩ := exec_same (hsame j) (hscope j) call
    -- The caller's engine moves along; those of the others stay.
    have hothers : ∀ k, k ≠ j → SamePart newV5 (new (name k))
        (exec newV5 (new (name j)) inner call).1 inner :=
      fun k hk => hsteps.touches.samePart (hkeys j k hk.symm) (hids k j hk)
    have hnext : ofName i (replies newV5 name (exec newV5 (new (name j)) inner call).1 calls) =
        ownReplies newV5 (new (name i))
          (Function.update own j (exec newV5 (new (name j)) (own j) call).1 i)
          (ofName i calls) := by
      refine ih (fun k => ?_) fun k => ?_
      · by_cases hk : k = j
        · subst hk
          rw [Function.update_self]
          exact hsteps.same
        · rw [Function.update_of_ne hk]
          exact ⟨fun key => ((hothers k hk).store key).trans ((hsame k).store key),
            fun u => ((hothers k hk).intents u).trans ((hsame k).intents u)⟩
      · by_cases hk : k = j
        · subst hk
          exact hsteps.inScope
        · exact (hothers k hk).inScope (hscope k)
    by_cases hi : j = i
    · subst hi
      rw [Function.update_self] at hnext
      simp only [ofName, replies, filter_cons, decide_true, if_true, map_cons,
        ownReplies] at hnext ⊢
      rw [hreply, hnext]
    · rw [Function.update_of_ne (Ne.symm hi)] at hnext
      simp only [ofName, replies, filter_cons, hi, decide_false] at hnext ⊢
      exact hnext

/-- Namespaces are isolated. When no name with the separator starts another one and
the derived ids of two namespaces differ, every interleaving of calls gives each
namespace the replies that its calls get alone, on an engine of its own. -/
theorem namespaces_isolated (hnames : ∀ i j, i ≠ j → ¬ (name i ++ [0]) <+: (name j ++ [0]))
    (hids : ∀ i j, i ≠ j → ∀ u v,
      namespacedTxn newV5 (new (name i)) u ≠ namespacedTxn newV5 (new (name j)) v)
    (calls : List (ι × Call V)) (i : ι) :
    ofName i (replies newV5 name .empty calls) =
      ownReplies newV5 (new (name i)) .empty (ofName i calls) := by
  refine replies_eq (fun i j hij key hp => ?_) hids (fun _ => .refl _) (fun _ _ _ hget => ?_) calls i
  · rcases prefix_or_prefix_of_prefix hp (isPrefix_physicalKey key) with h | h
    · exact hnames i j hij h
    · exact hnames j i hij.symm h
  · cases hget

end Interleavings

def lengthId (name : Bytes) : Uuid := Fin.ofNat (2 ^ 128) name.length

/-- Ids that tell namespaces apart by the length of their names. -/
def lengthV5 (ns : Uuid) (name : Bytes) : Uuid := if ns = namespaceOid then lengthId name else ns

theorem namespacedTxn_lengthV5 (h : lengthId ns.nsPrefix ≠ namespaceOid) (txnId : TxnId) :
    namespacedTxn lengthV5 ns txnId = lengthId ns.nsPrefix := by
  rw [namespacedTxn, lengthV5, lengthV5, if_pos rfl, if_neg h]

/-- The names of two groups, one of which starts the other. -/
def shardNames : Bool → Bytes
  | false => ascii "shard-1"
  | true => ascii "shard-10"

/-- A key of one group is not read by the other. -/
theorem shardNames_isolated :
    ofName false (replies lengthV5 shardNames .empty
        [(true, .writeIntent 1 (ascii "0k") 5 0), (true, .commit 1 3),
          (false, .get (ascii "0k") 4)]) = [.value none] := by
  have hids : ∀ i txnId, namespacedTxn lengthV5 (new (shardNames i)) txnId =
      lengthId (new (shardNames i)).nsPrefix := by
    intro i txnId
    refine namespacedTxn_lengthV5 ?_ txnId
    cases i <;> decide
  rw [namespaces_isolated (by decide) fun i j hij u v => ?_]
  · decide
  · rw [hids, hids]
    cases i <;> cases j <;> first | exact absurd rfl hij | decide

/-- A name with the separator in it: a key of the group `a`, NUL, `b` is a key of the
group `a`, which reads what the other one wrote. -/
theorem separator_in_name :
    ∃ (name : Bool → Bytes) (calls : List (Bool × Call Nat)), name false ≠ name true ∧
      (∀ u v, namespacedTxn lengthV5 (new (name false)) u ≠
        namespacedTxn lengthV5 (new (name true)) v) ∧
      ofName false (replies lengthV5 name .empty calls) ≠
        ownReplies lengthV5 (new (name false)) .empty (ofName false calls) := by
  refine ⟨fun i => if i then [97, 0, 98] else [97],
    [(true, .writeIntent 1 [107] 5 0), (true, .commit 1 3), (false, .get [98, 0, 107] 4)],
    by decide, fun u v => ?_, by decide⟩
  rw [namespacedTxn_lengthV5 (by decide), namespacedTxn_lengthV5 (by decide)]
  decide

end NamespacedKvEngine

end NodusDb
