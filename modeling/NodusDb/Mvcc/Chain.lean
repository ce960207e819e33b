import NodusDb.Lib.Lists
import NodusDb.Lib.VersionSet
import NodusDb.Storage.Api

/-!
# Version chains

The versions of one key: committed ones, each with its timestamp, and at most one intent. `KeyState`
is the content in normal form, the commits and the pending write apart; a chain is `Tidy` when it
lists its commits first. `writeIntentImpl_chain`, `commit_chain`, `abort_chain` and
`garbageCollect_spec` say what the operations do, and every later proof uses those.
-/

namespace NodusDb

open List Option

inductive MvccError
  | writeConflict (existing : TxnId)
  | intentNotFound (txn : TxnId)
  deriving DecidableEq, Repr

def MvccError.toKvError : MvccError → KvError
  | writeConflict existing => .writeConflict existing
  | intentNotFound txn => .intentNotFound txn

structure MvccValue (V : Type) where
  /-- `none` is a tombstone. -/
  value : Option V
  version : Nat
  txnId : Option TxnId
  isIntent : Bool
  /-- An intent belongs to a transaction. -/
  intent_txn : isIntent = true → txnId.isSome = true
  deriving DecidableEq

namespace MvccValue

variable {V : Type}

def isVisible (v : MvccValue V) (readTs : Nat) : Bool := !v.isIntent && decide (v.version ≤ readTs)

/-- The intent `write_intent_impl` pushes. -/
def intent (txnId : TxnId) (value : Option V) : MvccValue V :=
  ⟨value, u64Max, some txnId, true, fun _ => rfl⟩

/-- An intent turned into a committed version, as `commit` does in place. -/
def commitAt (v : MvccValue V) (commitTs : Nat) : MvccValue V :=
  { v with isIntent := false, version := commitTs, intent_txn := nofun }

def isIntentOf (v : MvccValue V) (txnId : TxnId) : Bool :=
  v.isIntent && decide (v.txnId = some txnId)

end MvccValue

inductive VisibleVersion (V : Type)
  /-- No committed version is visible. -/
  | absent
  /-- The newest visible version is a tombstone. -/
  | tombstone
  | value (value : V)
  deriving DecidableEq, Repr

/-- Whether older sources may still hold the key. -/
inductive GcMode
  | layered
  | complete
  deriving DecidableEq, Repr

structure VersionChain (V : Type) where
  versions : List (MvccValue V)
  deriving DecidableEq

namespace VersionChain

variable {V : Type}

/-- `VersionChain::default`. -/
def empty : VersionChain V := ⟨[]⟩

/-- The newest version visible at `readTs`. -/
def newestVisible (c : VersionChain V) (readTs : Nat) : Option (MvccValue V) :=
  maxByKey (·.version) (c.versions.filter (·.isVisible readTs))

def readVisible (c : VersionChain V) (readTs : Nat) : VisibleVersion V :=
  match c.newestVisible readTs with
  | some version =>
    match version.value with
    | some value => .value value
    | none => .tombstone
  | none => .absent

def read (c : VersionChain V) (readTs : Nat) : Option V :=
  match c.readVisible readTs with
  | .value value => some value
  | .absent | .tombstone => none

/-- The version number scans report beside a value they read. -/
def visibleVersion (c : VersionChain V) (readTs : Nat) : Nat :=
  (((c.versions.filter (·.isVisible readTs)).map (·.version)).max?).getD 0

def activeIntent (c : VersionChain V) : Option (MvccValue V) :=
  c.versions.reverse.find? (·.isIntent)

theorem activeIntent_txn {c : VersionChain V} {v : MvccValue V} (h : c.activeIntent = some v) :
    v.txnId.isSome = true :=
  v.intent_txn (find?_some h)

/-- `retain` the versions that are not intents of the transaction. -/
def dropIntentsOf (c : VersionChain V) (txnId : TxnId) : VersionChain V :=
  ⟨c.versions.filter fun v => !v.isIntentOf txnId⟩

def push (c : VersionChain V) (v : MvccValue V) : VersionChain V := ⟨c.versions ++ [v]⟩

/-- A put (`some`) or a delete (`none`) by a transaction. -/
def writeIntentImpl (c : VersionChain V) (txnId : TxnId) (value : Option V) :
    Except MvccError (VersionChain V) :=
  match h : c.activeIntent with
  | some intent =>
    if intent.txnId ≠ some txnId then
      .error (.writeConflict (intent.txnId.get (activeIntent_txn h)))
    else .ok ((c.dropIntentsOf txnId).push (.intent txnId value))
  | none => .ok (c.push (.intent txnId value))

def commit (c : VersionChain V) (txnId : TxnId) (commitTs : Nat) :
    Except MvccError (VersionChain V) :=
  match modifyLast (·.isIntentOf txnId) (·.commitAt commitTs) c.versions with
  | some versions => .ok ⟨versions⟩
  | none => .error (.intentNotFound txnId)

def abort (c : VersionChain V) (txnId : TxnId) : Except MvccError (VersionChain V) :=
  let c' := c.dropIntentsOf txnId
  if c'.versions.length = c.versions.length then .error (.intentNotFound txnId) else .ok c'

def committedDesc (c : VersionChain V) : List (MvccValue V) :=
  (c.versions.filter (!·.isIntent)).insertionSort fun a b => b.version ≤ a.version

/-- A tombstone that is the newest version of all, with nothing above the
watermark: `garbage_collect` may drop it when the chain is complete. -/
def reclaimTombstone (c : VersionChain V) (watermark : Nat) : VersionChain V × Nat :=
  let newest := ((c.versions.map (·.version)).max?).getD 0
  if newest ≤ watermark then
    match c.versions.find? fun v => decide (v.version = newest) with
    | some v =>
      if v.value.isNone && !v.isIntent then
        (⟨c.versions.filter fun v => decide (v.version ≠ newest)⟩, 1)
      else (c, 0)
    | none => (c, 0)
  else (c, 0)

/-- Drop the versions below the newest one visible at the watermark, and count
them. Nothing happens unless there is one to drop. -/
def garbageCollect (c : VersionChain V) (watermark : Nat) (mode : GcMode) :
    VersionChain V × Nat :=
  match c.committedDesc.dropWhile fun v => decide (watermark < v.version) with
  | keep :: old :: older =>
    let kept : VersionChain V :=
      ⟨c.versions.filter fun v => v.isIntent || decide (keep.version ≤ v.version)⟩
    match mode with
    | .layered => (kept, (old :: older).length)
    | .complete =>
      let (c', n) := kept.reclaimTombstone watermark
      (c', (old :: older).length + n)
  | _ => (c, 0)

end VersionChain

/-! ## Normal form -/

/-- The content of a chain: its commits, oldest first, and the pending write. -/
@[ext] structure KeyState (V : Type) where
  commits : List (MvccValue V)
  pending : Option (TxnId × Option V)
  committed : ∀ m ∈ commits, m.isIntent = false
  deriving DecidableEq

namespace KeyState

variable {V : Type}

def empty : KeyState V := ⟨[], none, by simp⟩

def chain (s : KeyState V) : VersionChain V :=
  ⟨s.commits ++ (s.pending.map fun p => MvccValue.intent p.1 p.2).toList⟩

def owner (s : KeyState V) : Option TxnId := s.pending.map (·.1)

def blocks (s : KeyState V) (txnId : TxnId) : Prop := s.owner ≠ none ∧ s.owner ≠ some txnId

instance (s : KeyState V) (txnId : TxnId) : Decidable (s.blocks txnId) :=
  inferInstanceAs (Decidable (_ ∧ _))

def setPending (s : KeyState V) (p : Option (TxnId × Option V)) : KeyState V :=
  { s with pending := p }

def addCommit (s : KeyState V) (txnId : TxnId) (value : Option V) (commitTs : Nat) :
    KeyState V where
  commits := s.commits ++ [(MvccValue.intent txnId value).commitAt commitTs]
  pending := none
  committed m hm := by
    rcases List.mem_append.mp hm with hm | hm
    · exact s.committed m hm
    rw [List.mem_singleton.mp hm]
    rfl

/-- Commit the pending write if it is the transaction's. -/
def commit (s : KeyState V) (txnId : TxnId) (commitTs : Nat) : KeyState V :=
  match s.pending with
  | some (o, value) => if o = txnId then s.addCommit txnId value commitTs else s
  | none => s

/-- Drop the pending write if it is the transaction's. -/
def abort (s : KeyState V) (txnId : TxnId) : KeyState V :=
  if s.owner = some txnId then s.setPending none else s

/-- Put a write of the transaction in place, unless another one is pending. -/
def write (s : KeyState V) (txnId : TxnId) (value : Option V) : KeyState V :=
  if s.blocks txnId then s else s.setPending (some (txnId, value))

/-- A savepoint's change of the transaction's write. -/
def replace (s : KeyState V) (txnId : TxnId) : IntentReplacement V → KeyState V
  | .put value => s.write txnId (some value)
  | .delete => s.write txnId none
  | .clear => s.abort txnId

/-! ## Who has a key, and what a commit adds -/

variable {s : KeyState V} {txnId o : TxnId} {value : Option V} {ts : Nat}

theorem owner_eq_some : s.owner = some o ↔ ∃ value, s.pending = some (o, value) := by
  simp [owner, map_eq_some_iff]

theorem owner_of_pending (h : s.pending = some (o, value)) : s.owner = some o :=
  owner_eq_some.mpr ⟨value, h⟩

theorem blocks_iff : s.blocks txnId ↔ ∃ o, s.owner = some o ∧ o ≠ txnId := by
  unfold blocks
  cases s.owner <;> simp

theorem blocks_of_pending (h : s.pending = some (o, value)) (hne : o ≠ txnId) : s.blocks txnId :=
  blocks_iff.mpr ⟨o, owner_of_pending h, hne⟩

theorem commits_write : (s.write txnId value).commits = s.commits := by
  unfold write
  split <;> rfl

theorem commit_of_pending (h : s.pending = some (txnId, value)) :
    s.commit txnId ts = s.addCommit txnId value ts := by
  rw [commit, h]
  exact if_pos rfl

theorem commit_of_owner_ne (h : s.owner ≠ some txnId) : s.commit txnId ts = s := by
  unfold commit
  split
  next o v hp =>
    refine if_neg fun ho => h ?_
    rw [owner_of_pending hp, ho]
  · rfl

theorem commit_of_idle (h : s.pending = none) : s.commit txnId ts = s := by
  rw [commit, h]

theorem commit_of_pending_ne (h : s.pending = some (o, value)) (hne : o ≠ txnId) :
    s.commit txnId ts = s :=
  commit_of_owner_ne fun ho => hne (some.inj ((owner_of_pending h).symm.trans ho))

theorem abort_of_owner_ne (h : s.owner ≠ some txnId) : s.abort txnId = s := if_neg h

theorem abort_of_pending_ne (h : s.pending = some (o, value)) (hne : o ≠ txnId) :
    s.abort txnId = s :=
  abort_of_owner_ne fun ho => hne (some.inj ((owner_of_pending h).symm.trans ho))

theorem mem_commits_commit : m ∈ (s.commit txnId ts).commits ↔
    m ∈ s.commits ∨ ∃ value, s.pending = some (txnId, value) ∧
      m = (MvccValue.intent txnId value).commitAt ts := by
  by_cases h : s.owner = some txnId
  · obtain ⟨value, hp⟩ := owner_eq_some.mp h
    rw [commit_of_pending hp, addCommit, mem_append, mem_singleton, hp]
    simp
  rw [commit_of_owner_ne h]
  refine ⟨.inl, fun hm => hm.resolve_right ?_⟩
  rintro ⟨value, hp, -⟩
  exact h (owner_of_pending hp)

theorem pending_of_commit (h : (s.commit txnId ts).pending = some p) : s.pending = some p := by
  by_cases ho : s.owner = some txnId
  · obtain ⟨value, hp⟩ := owner_eq_some.mp ho
    rw [commit_of_pending hp] at h
    cases h
  · rwa [commit_of_owner_ne ho] at h

end KeyState

namespace VersionChain

variable {V : Type}

def state (c : VersionChain V) : KeyState V where
  commits := c.versions.filter (!·.isIntent)
  pending := c.activeIntent.bind fun v => v.txnId.map fun t => (t, v.value)
  committed m hm := by simpa using (List.mem_filter.mp hm).2

/-- The commits come first and the only intent, as `write_intent_impl` builds
it, comes last. -/
def Tidy (c : VersionChain V) : Prop := c.state.chain = c

theorem Tidy.eq {c : VersionChain V} (h : c.Tidy) : c = c.state.chain := Eq.symm h

end VersionChain

namespace KeyState

variable {V : Type} (s : KeyState V)

theorem activeIntent_chain :
    s.chain.activeIntent = s.pending.map fun p => MvccValue.intent p.1 p.2 := by
  cases hp : s.pending with
  | some p => simp [chain, VersionChain.activeIntent, hp, MvccValue.intent]
  | none =>
    simp only [chain, VersionChain.activeIntent, hp, map_none, toList_none,
      append_nil, find?_eq_none, mem_reverse]
    intro m hm
    simp [s.committed m hm]

theorem filter_commits : s.commits.filter (!·.isIntent) = s.commits :=
  filter_eq_self.mpr fun m hm => by simp [s.committed m hm]

@[simp] theorem state_chain : s.chain.state = s := by
  refine KeyState.ext ?_ ?_
  · show (s.commits ++ _).filter _ = s.commits
    rw [filter_append, filter_commits]
    cases s.pending <;> simp [MvccValue.intent]
  · show s.chain.activeIntent.bind _ = s.pending
    rw [activeIntent_chain]
    cases s.pending <;> rfl

theorem tidy_chain : s.chain.Tidy := by
  rw [VersionChain.Tidy, state_chain]

theorem dropIntentsOf_chain (txnId : TxnId) :
    s.chain.dropIntentsOf txnId = (s.abort txnId).chain := by
  have hc : s.commits.filter (fun v => !v.isIntentOf txnId) = s.commits :=
    filter_eq_self.mpr fun m hm => by simp [MvccValue.isIntentOf, s.committed m hm]
  by_cases ho : s.owner = some txnId
  · obtain ⟨p, hp, rfl⟩ := map_eq_some_iff.mp ho
    rw [abort, if_pos ho]
    simp only [VersionChain.dropIntentsOf, chain, filter_append, hc, hp, setPending]
    simp [MvccValue.intent, MvccValue.isIntentOf]
  rw [abort, if_neg ho]
  have hp : ∀ p ∈ s.pending, p.1 ≠ txnId := fun p hp he =>
    ho (map_eq_some_iff.mpr ⟨p, hp, he⟩)
  simp only [VersionChain.dropIntentsOf, chain, filter_append, hc]
  refine congrArg (fun l => (⟨s.commits ++ l⟩ : VersionChain V)) (filter_eq_self.mpr ?_)
  intro m hm
  obtain ⟨p, hmem, rfl⟩ := map_eq_some_iff.mp (mem_toList.mp hm)
  simp [MvccValue.isIntentOf, MvccValue.intent, hp p hmem]

theorem push_chain (h : s.pending = none) :
    s.chain.push (.intent txnId value) = (s.setPending (some (txnId, value))).chain := by
  simp [VersionChain.push, chain, setPending, h]

theorem writeIntentImpl_chain (txnId : TxnId) (value : Option V) :
    s.chain.writeIntentImpl txnId value =
      match s.owner with
      | some o =>
        if o ≠ txnId then .error (.writeConflict o)
        else .ok (s.setPending (some (txnId, value))).chain
      | none => .ok (s.setPending (some (txnId, value))).chain := by
  have ha := s.activeIntent_chain
  unfold VersionChain.writeIntentImpl
  cases hp : s.pending with
  | none =>
    rw [hp] at ha
    split
    next intent h => rw [ha] at h; cases h
    · simp [owner, hp, push_chain]
  | some p =>
    rw [hp] at ha
    split
    next intent h =>
      rw [ha] at h
      cases h
      simp only [MvccValue.intent, owner, hp, map_some, ne_eq, some.injEq, get_some]
      split
      · rfl
      next ho =>
      rw [not_not] at ho
      have hab : (s.abort txnId) = s.setPending none := by simp [abort, owner, hp, ho]
      rw [dropIntentsOf_chain, hab]
      exact congrArg _ (push_chain (s.setPending none) rfl)
    next h => rw [ha] at h; cases h

theorem commit_chain (txnId : TxnId) (commitTs : Nat) :
    s.chain.commit txnId commitTs =
      if s.owner = some txnId then .ok (s.commit txnId commitTs).chain
      else .error (.intentNotFound txnId) := by
  unfold VersionChain.commit
  cases hp : s.pending with
  | none =>
    have hnone : modifyLast (·.isIntentOf txnId) (·.commitAt commitTs) s.chain.versions = none := by
      rw [modifyLast_eq_none]
      intro m hm
      have : m ∈ s.commits := by simpa [chain, hp] using hm
      simp [MvccValue.isIntentOf, s.committed m this]
    rw [hnone]
    simp [owner, hp]
  | some p =>
    by_cases ho : p.1 = txnId
    · have hlast : modifyLast (·.isIntentOf txnId) (·.commitAt commitTs) s.chain.versions =
          some (s.commits ++ [(MvccValue.intent p.1 p.2).commitAt commitTs]) := by
        simp only [chain, hp, map_some, toList_some]
        exact modifyLast_append (by simp [MvccValue.isIntentOf, MvccValue.intent, ho])
      rw [hlast]
      simp [owner, hp, ho, commit, addCommit, chain]
    have hnone : modifyLast (·.isIntentOf txnId) (·.commitAt commitTs) s.chain.versions =
        none := by
      rw [modifyLast_eq_none]
      intro m hm
      simp only [chain, hp, map_some, toList_some, mem_append, mem_singleton] at hm
      rcases hm with hm | rfl
      · simp [MvccValue.isIntentOf, s.committed m hm]
      · simp [MvccValue.isIntentOf, MvccValue.intent, ho]
    rw [hnone]
    simp [owner, hp, ho]

theorem abort_chain (txnId : TxnId) :
    s.chain.abort txnId =
      if s.owner = some txnId then .ok (s.abort txnId).chain
      else .error (.intentNotFound txnId) := by
  unfold VersionChain.abort
  simp only [dropIntentsOf_chain]
  by_cases ho : s.owner = some txnId
  · obtain ⟨p, hp, hpt⟩ := map_eq_some_iff.mp ho
    simp [abort, ho, chain, setPending, hp]
  · simp [abort, ho]

end KeyState

/-! ## Reads -/

namespace VersionChain

variable {V : Type} {c : VersionChain V} {readTs : Nat}

def commitSet (c : VersionChain V) : Set (MvccValue V) :=
  {m | m ∈ c.versions ∧ m.isIntent = false}

variable {m v : MvccValue V} {watermark : Nat}

theorem mem_visible :
    m ∈ c.versions.filter (·.isVisible readTs) ↔ m ∈ c.commitSet ∧ m.version ≤ readTs := by
  simp [commitSet, MvccValue.isVisible, and_assoc]

theorem isNewest_of_newestVisible (h : c.newestVisible readTs = some v) :
    IsNewest MvccValue.version c.commitSet readTs v := by
  obtain ⟨hmem, hmax⟩ := maxByKey_mem h
  obtain ⟨hc, hle⟩ := mem_visible.mp hmem
  exact ⟨hc, hle, fun a ha hat => hmax a (mem_visible.mpr ⟨ha, hat⟩)⟩

theorem newestVisible_eq_none :
    c.newestVisible readTs = none ↔ ∀ m ∈ c.commitSet, ¬ m.version ≤ readTs := by
  rw [newestVisible, maxByKey_eq_none, eq_nil_iff_forall_not_mem]
  constructor
  · intro h m hm hle
    exact h m (mem_visible.mpr ⟨hm, hle⟩)
  · intro h m hm
    obtain ⟨hc, hle⟩ := mem_visible.mp hm
    exact h m hc hle

theorem newestVisible_of_isNewest (hinj : Set.InjOn MvccValue.version c.commitSet)
    (h : IsNewest MvccValue.version c.commitSet readTs v) : c.newestVisible readTs = some v := by
  cases hn : c.newestVisible readTs with
  | none => exact absurd h.2.1 (newestVisible_eq_none.mp hn v h.1)
  | some w => rw [(isNewest_of_newestVisible hn).eq_of_injOn hinj h]

theorem visibleVersion_eq (h : c.newestVisible readTs = some v) :
    c.visibleVersion readTs = v.version := by
  obtain ⟨hmem, hmax⟩ := maxByKey_mem h
  have hmax? : ((c.versions.filter (·.isVisible readTs)).map (·.version)).max? =
      some v.version := by
    rw [max?_eq_some_iff]
    refine ⟨mem_map_of_mem hmem, fun n hn => ?_⟩
    obtain ⟨m, hm, rfl⟩ := mem_map.mp hn
    exact hmax m hm
  rw [visibleVersion, hmax?, getD_some]

theorem read_eq : c.read readTs = (c.newestVisible readTs).bind (·.value) := by
  unfold read readVisible
  cases c.newestVisible readTs with
  | none => rfl
  | some v =>
    obtain ⟨value, _, _, _, _⟩ := v
    cases value <;> rfl

/-! ## Garbage collection -/

theorem mem_committedDesc : m ∈ c.committedDesc ↔ m ∈ c.commitSet := by
  rw [committedDesc, mem_insertionSort]
  simp [commitSet]

theorem committedDesc_sorted : c.committedDesc.Pairwise fun a b => b.version ≤ a.version := by
  have : Std.Total fun a b : MvccValue V => b.version ≤ a.version :=
    ⟨fun a b => le_total b.version a.version⟩
  have : IsTrans (MvccValue V) fun a b => b.version ≤ a.version :=
    ⟨fun _ _ _ hab hbc => hbc.trans hab⟩
  exact pairwise_insertionSort _ _

/-- The versions `garbage_collect` retains, given the one it keeps. -/
def keepFrom (c : VersionChain V) (keep : MvccValue V) : VersionChain V :=
  ⟨c.versions.filter fun v => v.isIntent || decide (keep.version ≤ v.version)⟩

theorem dropWhile_committedDesc (watermark : Nat) :
    (c.committedDesc.dropWhile fun v => decide (watermark < v.version)) =
      c.committedDesc.filter fun v => decide (v.version ≤ watermark) := by
  rw [dropWhile_eq_filter (committedDesc_sorted.imp fun hab hb => ?_)]
  · refine filter_congr fun m _ => ?_
    simp [← decide_not]
  · rw [decide_eq_true_eq] at hb ⊢
    exact hb.trans_le hab

theorem isNewest_of_dropWhile
    (h : (c.committedDesc.dropWhile fun v => decide (watermark < v.version)) = keep :: rest) :
    IsNewest MvccValue.version c.commitSet watermark keep := by
  rw [dropWhile_committedDesc] at h
  have hmem : ∀ a, a ∈ keep :: rest ↔ a ∈ c.commitSet ∧ a.version ≤ watermark := by
    intro a
    rw [← h, mem_filter, mem_committedDesc, decide_eq_true_eq]
  obtain ⟨hcommit, hle⟩ := (hmem keep).mp mem_cons_self
  refine ⟨hcommit, hle, fun a ha haw => ?_⟩
  have hsorted := (committedDesc_sorted (c := c)).filter fun v => decide (v.version ≤ watermark)
  rw [h] at hsorted
  rcases mem_cons.mp ((hmem a).mpr ⟨ha, haw⟩) with rfl | hrest
  · exact le_rfl
  · exact (pairwise_cons.mp hsorted).1 a hrest

theorem garbageCollect_spec (c : VersionChain V) (watermark : Nat) (mode : GcMode) :
    (c.garbageCollect watermark mode).1 = c ∨
    ∃ keep, IsNewest MvccValue.version c.commitSet watermark keep ∧
      (mode = .layered ∧ (c.garbageCollect watermark mode).1 = c.keepFrom keep ∨
       mode = .complete ∧
        (c.garbageCollect watermark mode).1 =
          ((c.keepFrom keep).reclaimTombstone watermark).1) := by
  unfold garbageCollect
  split
  next keep old older hd =>
    refine .inr ⟨keep, isNewest_of_dropWhile hd, ?_⟩
    cases mode with
    | layered => exact .inl ⟨rfl, rfl⟩
    | complete => exact .inr ⟨rfl, rfl⟩
  · exact .inl rfl

/-! ## The tombstone reclaimed -/

/-- The newest timestamp of all versions, intents included. -/
def newest (c : VersionChain V) : Nat := ((c.versions.map (·.version)).max?).getD 0

/-- The first version with the newest timestamp. -/
def firstNewest (c : VersionChain V) : Option (MvccValue V) :=
  c.versions.find? fun v => decide (v.version = c.newest)

/-- The version a complete chain gives up beside the old ones. -/
def Reclaims (c : VersionChain V) (watermark : Nat) : Prop :=
  c.newest ≤ watermark ∧ ∃ t, c.firstNewest = some t ∧ t.value = none ∧ t.isIntent = false

theorem newest_spec (h : m ∈ c.versions) :
    m.version ≤ c.newest ∧ ∃ t ∈ c.versions, t.version = c.newest := by
  cases hmax : (c.versions.map (·.version)).max? with
  | none =>
    rw [max?_eq_none_iff, map_eq_nil_iff] at hmax
    rw [hmax] at h
    cases h
  | some n =>
    obtain ⟨hmem, hle⟩ := max?_eq_some_iff.mp hmax
    rw [newest, hmax]
    exact ⟨hle _ (mem_map_of_mem h), mem_map.mp hmem⟩

theorem firstNewest_spec (h : c.firstNewest = some t) : t ∈ c.versions ∧ t.version = c.newest :=
  ⟨mem_of_find?_eq_some h, by simpa using find?_some h⟩

theorem reclaimTombstone_eq (c : VersionChain V) (watermark : Nat) :
    c.reclaimTombstone watermark =
      if c.newest ≤ watermark then
        match c.firstNewest with
        | some v =>
          if v.value.isNone && !v.isIntent then
            (⟨c.versions.filter fun v => decide (v.version ≠ c.newest)⟩, 1)
          else (c, 0)
        | none => (c, 0)
      else (c, 0) := rfl

theorem reclaimTombstone_of_reclaims (h : c.Reclaims watermark) :
    c.reclaimTombstone watermark =
      (⟨c.versions.filter fun v => decide (v.version ≠ c.newest)⟩, 1) := by
  obtain ⟨hle, t, hfirst, hvalue, hintent⟩ := h
  rw [reclaimTombstone_eq, if_pos hle, hfirst]
  simp [hvalue, hintent]

theorem reclaimTombstone_of_not_reclaims (h : ¬ c.Reclaims watermark) :
    c.reclaimTombstone watermark = (c, 0) := by
  rw [reclaimTombstone_eq]
  split
  next hle =>
    split
    next v hfirst => exact if_neg fun ht => h ⟨hle, v, hfirst, by simpa using ht⟩
    · rfl
  · rfl

theorem reclaimTombstone_spec (c : VersionChain V) (watermark : Nat) :
    (c.reclaimTombstone watermark).1 = c ∨
    ∃ t ∈ c.commitSet, t.value = none ∧ t.version ≤ watermark ∧
      (∀ m ∈ c.versions, m.version ≤ t.version) ∧
      (c.reclaimTombstone watermark).1 =
        ⟨c.versions.filter fun v => decide (v.version ≠ t.version)⟩ := by
  by_cases h : c.Reclaims watermark
  · obtain ⟨hle, t, hfirst, hvalue, hintent⟩ := id h
    obtain ⟨hmem, hnewest⟩ := firstNewest_spec hfirst
    rw [reclaimTombstone_of_reclaims h]
    refine .inr ⟨t, ⟨hmem, hintent⟩, hvalue, hnewest ▸ hle, fun m hm => ?_, by rw [hnewest]⟩
    exact hnewest ▸ (newest_spec hm).1
  · rw [reclaimTombstone_of_not_reclaims h]
    exact .inl rfl

end VersionChain

end NodusDb
