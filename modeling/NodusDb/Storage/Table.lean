import NodusDb.Mvcc.Chain

/-!
# Chains and the intents index

Both engines and the log replay work on the version chain of every key and, for every transaction,
the keys it has intents on. A proof reads a table through `view`, the normal form of a chain, and
`keysOf`, the index; `Table.WF` is the invariant.
-/

namespace NodusDb

open KeyState List

structure Table (V : Type) where
  store : OrdMap Bytes (VersionChain V)
  /-- The outstanding intents of a transaction: key and write time. -/
  intents : OrdMap TxnId (List (Bytes × Nat))
  deriving DecidableEq

namespace Table

variable {V : Type}

def empty : Table V := ⟨.empty, .empty⟩

/-- The chain of a key; `entry(key).or_default()`. -/
def chainAt (s : Table V) (key : Bytes) : VersionChain V := (s.store.get? key).getD .empty

/-- The keys of a transaction in the index; `pending_intent_keys`. -/
def keysOf (s : Table V) (txnId : TxnId) : List Bytes :=
  ((s.intents.get? txnId).getD []).map (·.1)

/-- `intents.entry(txn_id).or_default().push((key, now))`. -/
def pushIntent (intents : OrdMap TxnId (List (Bytes × Nat))) (txnId : TxnId) (key : Bytes)
    (now : Nat) : OrdMap TxnId (List (Bytes × Nat)) :=
  intents.insert txnId ((intents.get? txnId).getD [] ++ [(key, now)])

/-- Write an intent and index it. A conflict is only possible on an existing
entry, so a failed write leaves the table as it was. -/
def writeIntentImpl (s : Table V) (txnId : TxnId) (key : Bytes) (value : Option V) (now : Nat) :
    Except KvError (Table V) :=
  match (s.chainAt key).writeIntentImpl txnId value with
  | .ok chain => .ok ⟨s.store.insert key chain, pushIntent s.intents txnId key now⟩
  | .error e => .error e.toKvError

/-- An intent read back from the log: a conflict is ignored and the key is
indexed all the same. -/
def replayIntent (s : Table V) (txnId : TxnId) (key : Bytes) (value : Option V) (now : Nat) :
    Table V :=
  match (s.chainAt key).writeIntentImpl txnId value with
  | .ok chain => ⟨s.store.insert key chain, pushIntent s.intents txnId key now⟩
  | .error _ => ⟨s.store.insert key (s.chainAt key), pushIntent s.intents txnId key now⟩

/-- The first pass of `write_intent_batch`. -/
def batchConflicts (s : Table V) (txnId : TxnId) (ops : List (IntentOperation V)) : Bool :=
  ops.any fun op =>
    match (s.store.get? op.key).bind (·.activeIntent) with
    | some intent => decide (intent.txnId ≠ some txnId)
    | none => false

def writeIntentBatch (s : Table V) (txnId : TxnId) (ops : List (IntentOperation V)) (now : Nat) :
    Except KvError (Table V) :=
  if s.batchConflicts txnId ops then .error (.writeConflict txnId)
  else ops.foldlM (fun s op => s.writeIntentImpl txnId op.key op.value now) s

/-- `replace_intent` of a put or a delete, on the chain without the
transaction's intents. -/
def replaceWith (s : Table V) (txnId : TxnId) (key : Bytes) (chain : VersionChain V)
    (value : Option V) (now : Nat) : Table V × Except KvError Unit :=
  match chain.writeIntentImpl txnId value with
  | .ok chain => (⟨s.store.insert key chain, pushIntent s.intents txnId key now⟩, .ok ())
  | .error e => (⟨s.store.insert key chain, s.intents⟩, .error e.toKvError)

def replaceIntent (s : Table V) (txnId : TxnId) (key : Bytes) (replacement : IntentReplacement V)
    (now : Nat) : Table V × Except KvError Unit :=
  let chain := (s.chainAt key).dropIntentsOf txnId
  match replacement with
  | .put value => s.replaceWith txnId key chain (some value) now
  | .delete => s.replaceWith txnId key chain none now
  | .clear =>
    let intents :=
      match s.intents.get? txnId with
      | some keys =>
        let keys := keys.filter fun e => decide (e.1 ≠ key)
        if keys.isEmpty then s.intents.erase txnId else s.intents.insert txnId keys
      | none => s.intents
    (⟨s.store.insert key chain, intents⟩, .ok ())

/-- Apply a chain operation to each listed key, ignoring its failures. -/
def resolveKeys (f : VersionChain V → Except MvccError (VersionChain V))
    (store : OrdMap Bytes (VersionChain V)) (keys : List (Bytes × Nat)) :
    OrdMap Bytes (VersionChain V) :=
  keys.foldl (fun store e =>
    match store.get? e.1 with
    | some chain =>
      match f chain with
      | .ok chain => store.insert e.1 chain
      | .error _ => store
    | none => store) store

/-- Resolve every indexed intent of a transaction and forget them. -/
def resolve (s : Table V) (txnId : TxnId)
    (f : VersionChain V → Except MvccError (VersionChain V)) : Table V :=
  match s.intents.get? txnId with
  | some keys => ⟨resolveKeys f s.store keys, s.intents.erase txnId⟩
  | none => s

def commit (s : Table V) (txnId : TxnId) (commitTs : Nat) : Table V :=
  s.resolve txnId (·.commit txnId commitTs)

def commitBatch (s : Table V) (commits : List (TxnId × Nat)) : Table V :=
  commits.foldl (fun s c => s.commit c.1 c.2) s

def abort (s : Table V) (txnId : TxnId) : Table V :=
  s.resolve txnId (·.abort txnId)

/-- Whether some indexed key starts with the bytes given. -/
def hasPendingIntents (s : Table V) (start : Bytes) : Bool :=
  s.intents.values.flatten.any fun e => start.isPrefixOf e.1

/-! ## The view of a table -/

def view (s : Table V) (key : Bytes) : KeyState V := (s.chainAt key).state

/-- Chains are in normal form and the index lists every pending write. -/
structure WF (s : Table V) : Prop where
  tidy : ∀ key, (s.chainAt key).Tidy
  indexed : ∀ key txnId, (s.view key).owner = some txnId → key ∈ s.keysOf txnId

theorem WF.chainAt_eq {s : Table V} (h : s.WF) (key : Bytes) : s.chainAt key = (s.view key).chain :=
  (h.tidy key).eq

theorem wf_empty : (empty : Table V).WF :=
  ⟨fun _ => rfl, fun _ _ h => by cases h⟩

theorem chainAt_insert (store : OrdMap Bytes (VersionChain V))
    (intents : OrdMap TxnId (List (Bytes × Nat))) (key j : Bytes) (chain : VersionChain V) :
    (⟨store.insert key chain, intents⟩ : Table V).chainAt j =
      if j = key then chain else (⟨store, intents⟩ : Table V).chainAt j := by
  simp only [chainAt, OrdMap.get?_insert]
  split <;> rfl

theorem chainAt_collected (s : Table V) (intents : OrdMap TxnId (List (Bytes × Nat)))
    {f : VersionChain V → VersionChain V × Nat} (hempty : (f .empty).1 = .empty) (key : Bytes) :
    (⟨((s.store.mapVals fun _ chain => f chain).mapVals fun _ r => r.1).filter
        fun _ chain => !chain.versions.isEmpty, intents⟩ : Table V).chainAt key =
      (f (s.chainAt key)).1 := by
  rw [chainAt, OrdMap.get?_filter, OrdMap.get?_mapVals, OrdMap.get?_mapVals, chainAt]
  cases s.store.get? key with
  | none => exact hempty.symm
  | some c =>
    show (Option.filter _ (some (f c).1)).getD VersionChain.empty = (f c).1
    rw [Option.filter_some]
    split
    · rfl
    next he =>
    rw [Bool.not_eq_true, Bool.not_eq_false', List.isEmpty_iff] at he
    rw [VersionChain.empty, Option.getD_none, ← he]

theorem keysOf_pushIntent (store store' : OrdMap Bytes (VersionChain V))
    (intents : OrdMap TxnId (List (Bytes × Nat))) (txnId u : TxnId) (key : Bytes) (now : Nat) :
    (⟨store, pushIntent intents txnId key now⟩ : Table V).keysOf u =
      if u = txnId then (⟨store', intents⟩ : Table V).keysOf txnId ++ [key]
      else (⟨store', intents⟩ : Table V).keysOf u := by
  simp only [keysOf, pushIntent, OrdMap.get?_insert]
  split <;> simp

/-! ## Writing one key -/

/-- The table with a new content of one key, indexed for the transaction. -/
def record (s : Table V) (key : Bytes) (state : KeyState V) (txnId : TxnId) (now : Nat) :
    Table V :=
  ⟨s.store.insert key state.chain, pushIntent s.intents txnId key now⟩

variable {s : Table V} {key : Bytes} {txnId : TxnId} {value : Option V} {now : Nat}

theorem view_insert_chain (intents : OrdMap TxnId (List (Bytes × Nat))) (state : KeyState V)
    (j : Bytes) :
    (⟨s.store.insert key state.chain, intents⟩ : Table V).view j =
      if j = key then state else s.view j := by
  simp only [view, chainAt_insert]
  split
  · exact state.state_chain
  · rfl

theorem tidy_insert_chain (h : s.WF) (intents : OrdMap TxnId (List (Bytes × Nat)))
    (state : KeyState V) (j : Bytes) :
    ((⟨s.store.insert key state.chain, intents⟩ : Table V).chainAt j).Tidy := by
  rw [chainAt_insert]
  split
  · exact state.tidy_chain
  · exact h.tidy j

theorem view_record (state : KeyState V) (j : Bytes) :
    (s.record key state txnId now).view j = if j = key then state else s.view j :=
  view_insert_chain _ state j

theorem keysOf_record (state : KeyState V) (u : TxnId) :
    (s.record key state txnId now).keysOf u =
      if u = txnId then s.keysOf txnId ++ [key] else s.keysOf u :=
  keysOf_pushIntent _ s.store s.intents txnId u key now

variable {state : KeyState V} {f : VersionChain V → Except MvccError (VersionChain V)}
  {g : KeyState V → KeyState V}

theorem WF.record (h : s.WF)
    (ho : ∀ o, state.owner = some o → o = txnId ∨ (s.view key).owner = some o) :
    (s.record key state txnId now).WF := by
  refine ⟨tidy_insert_chain h _ state, fun j u hu => ?_⟩
  rw [view_record] at hu
  rw [keysOf_record]
  split at hu
  next hj =>
    subst hj
    rcases ho u hu with rfl | hold
    · simp
    have := h.indexed j u hold
    split
    next hut => subst hut; exact mem_append_left _ this
    · exact this
  · have := h.indexed j u hu
    split
    next hut => subst hut; exact mem_append_left _ this
    · exact this

theorem writeIntentImpl_of_not_blocks (h : s.WF) (hb : ¬ (s.view key).blocks txnId) :
    s.writeIntentImpl txnId key value now =
      .ok (s.record key ((s.view key).setPending (some (txnId, value))) txnId now) := by
  unfold writeIntentImpl
  rw [h.chainAt_eq, writeIntentImpl_chain]
  cases ho : (s.view key).owner with
  | none => rfl
  | some o =>
    have : o = txnId := by
      by_contra hne
      exact hb (blocks_iff.mpr ⟨o, ho, hne⟩)
    simp [this, record]

theorem writeIntentImpl_of_blocks (h : s.WF) (hb : (s.view key).blocks txnId) :
    ∃ o, (s.view key).owner = some o ∧
      s.writeIntentImpl txnId key value now = .error (.writeConflict o) := by
  obtain ⟨o, ho, hne⟩ := blocks_iff.mp hb
  refine ⟨o, ho, ?_⟩
  unfold writeIntentImpl
  rw [h.chainAt_eq, writeIntentImpl_chain, ho]
  simp [hne, MvccError.toKvError]

theorem replayIntent_eq (h : s.WF) :
    s.replayIntent txnId key value now =
      s.record key ((s.view key).write txnId value) txnId now := by
  by_cases hb : (s.view key).blocks txnId
  · obtain ⟨o, ho, hne⟩ := blocks_iff.mp hb
    unfold replayIntent write
    rw [h.chainAt_eq, writeIntentImpl_chain]
    simp [hb, ho, hne, record]
  have hwrite : s.writeIntentImpl txnId key value now = _ := writeIntentImpl_of_not_blocks h hb
  unfold writeIntentImpl at hwrite
  unfold replayIntent write
  rw [if_neg hb]
  split at hwrite
  · exact Except.ok.inj hwrite
  · cases hwrite

/-! ## Resolving a transaction -/

theorem keysOf_erase (store store' : OrdMap Bytes (VersionChain V))
    (intents : OrdMap TxnId (List (Bytes × Nat))) (u : TxnId) :
    (⟨store, intents.erase txnId⟩ : Table V).keysOf u =
      if u = txnId then [] else (⟨store', intents⟩ : Table V).keysOf u := by
  simp only [keysOf, OrdMap.get?_erase]
  split <;> rfl

/-- A chain operation that resolves the intents of a transaction: on a chain
without one it fails, on a chain with one it leaves none. -/
structure Resolves (txnId : TxnId) (f : VersionChain V → Except MvccError (VersionChain V))
    (g : KeyState V → KeyState V) : Prop where
  ok : ∀ state : KeyState V, state.owner = some txnId → f state.chain = .ok (g state).chain
  error : ∀ state : KeyState V, state.owner ≠ some txnId → ∃ e, f state.chain = .error e
  other : ∀ state : KeyState V, state.owner ≠ some txnId → g state = state
  done : ∀ state : KeyState V, (g state).owner ≠ some txnId
  owner : ∀ (state : KeyState V) u, (g state).owner = some u → state.owner = some u

theorem resolves_commit (txnId : TxnId) (commitTs : Nat) :
    Resolves (V := V) txnId (·.commit txnId commitTs) (·.commit txnId commitTs) := by
  have hmine : ∀ state : KeyState V, state.owner = some txnId →
      (state.commit txnId commitTs).owner = none := by
    intro state ho
    obtain ⟨value, hp⟩ := owner_eq_some.mp ho
    rw [commit_of_pending hp]
    rfl
  refine ⟨fun state ho => ?_, fun state ho => ?_, fun _ => commit_of_owner_ne,
    fun state => ?_, fun state u hu => ?_⟩
  · rw [commit_chain, if_pos ho]
  · exact ⟨_, by rw [commit_chain, if_neg ho]⟩
  · by_cases ho : state.owner = some txnId
    · rw [hmine state ho]; simp
    · rw [commit_of_owner_ne ho]; exact ho
  · by_cases ho : state.owner = some txnId
    · rw [hmine state ho] at hu; cases hu
    · rwa [commit_of_owner_ne ho] at hu

theorem resolves_abort (txnId : TxnId) :
    Resolves (V := V) txnId (·.abort txnId) (·.abort txnId) := by
  refine ⟨fun state ho => ?_, fun state ho => ?_, fun state ho => ?_, fun state => ?_,
    fun state u hu => ?_⟩
  · rw [abort_chain, if_pos ho]
  · exact ⟨_, by rw [abort_chain, if_neg ho]⟩
  · rw [KeyState.abort, if_neg ho]
  · rw [KeyState.abort]
    split
    · simp [setPending, owner]
    · assumption
  · rw [KeyState.abort] at hu
    split at hu
    · cases hu
    · exact hu

/-- One key of `resolveKeys`. -/
def resolveKey (f : VersionChain V → Except MvccError (VersionChain V))
    (store : OrdMap Bytes (VersionChain V)) (key : Bytes) : OrdMap Bytes (VersionChain V) :=
  match store.get? key with
  | some chain =>
    match f chain with
    | .ok chain => store.insert key chain
    | .error _ => store
  | none => store

theorem resolveKeys_cons (f : VersionChain V → Except MvccError (VersionChain V))
    (store : OrdMap Bytes (VersionChain V)) (e : Bytes × Nat) (keys : List (Bytes × Nat)) :
    resolveKeys f store (e :: keys) = resolveKeys f (resolveKey f store e.1) keys := rfl

theorem resolveKey_spec (hf : Resolves txnId f g) (ht : ∀ k, (s.chainAt k).Tidy) (key j : Bytes) :
    ((⟨resolveKey f s.store key, s.intents⟩ : Table V).chainAt j).Tidy ∧
    (⟨resolveKey f s.store key, s.intents⟩ : Table V).view j =
      if j = key then g (s.view j) else s.view j := by
  unfold resolveKey
  split
  next chain hget =>
    have hchain : chain = (s.view key).chain := by
      have hat : s.chainAt key = chain := by rw [chainAt, hget]; rfl
      rw [← hat]
      exact (ht key).eq
    by_cases ho : (s.view key).owner = some txnId
    · rw [hchain, hf.ok _ ho]
      simp only
      rw [view_insert_chain, chainAt_insert]
      constructor
      · split
        · exact tidy_chain _
        · exact ht j
      · split
        next hj => rw [hj]
        · rfl
    · obtain ⟨e, he⟩ := hf.error _ ho
      rw [hchain, he]
      refine ⟨ht j, ?_⟩
      show s.view j = if j = key then g (s.view j) else s.view j
      split
      next hj => subst hj; exact (hf.other _ ho).symm
      · rfl
  next hget =>
    refine ⟨ht j, ?_⟩
    split
    next hj =>
      subst hj
      have hempty : s.view j = .empty := by
        rw [view, chainAt, hget]
        rfl
      refine (hf.other _ ?_).symm
      rw [hempty]
      exact Option.some_ne_none txnId |>.symm
    · rfl

theorem resolveKeys_spec (hf : Resolves txnId f g) (keys : List (Bytes × Nat))
    (s : Table V) (ht : ∀ k, (s.chainAt k).Tidy) (j : Bytes) :
    ((⟨resolveKeys f s.store keys, s.intents⟩ : Table V).chainAt j).Tidy ∧
    (⟨resolveKeys f s.store keys, s.intents⟩ : Table V).view j =
      if j ∈ keys.map (·.1) then g (s.view j) else s.view j := by
  induction keys generalizing s with
  | nil => exact ⟨ht j, by simp [resolveKeys]⟩
  | cons e keys ih =>
    rw [resolveKeys_cons]
    have hone := resolveKey_spec hf ht e.1
    obtain ⟨htidy, hview⟩ := ih ⟨resolveKey f s.store e.1, s.intents⟩ fun k => (hone k).1
    refine ⟨htidy, ?_⟩
    rw [hview, (hone j).2]
    by_cases hj : j = e.1
    · -- A key listed again finds nothing left to resolve.
      have hgg : g (g (s.view j)) = g (s.view j) := hf.other _ (hf.done _)
      have hmem : j ∈ (e :: keys).map (·.1) := by rw [hj]; exact mem_cons_self
      rw [if_pos hj, if_pos hmem, hgg, ite_self]
    · have hmem : j ∈ (e :: keys).map (·.1) ↔ j ∈ keys.map (·.1) := by
        rw [map_cons, mem_cons, or_iff_right hj]
      rw [if_neg hj]
      simp only [hmem]

theorem view_resolve (hf : Resolves txnId f g) (h : s.WF) (j : Bytes) :
    (s.resolve txnId f).view j = g (s.view j) := by
  unfold resolve
  cases hget : s.intents.get? txnId with
  | none =>
    refine (hf.other _ fun ho => ?_).symm
    have := h.indexed j txnId ho
    simp [keysOf, hget] at this
  | some keys =>
    show (⟨resolveKeys f s.store keys, s.intents⟩ : Table V).view j = _
    rw [(resolveKeys_spec hf keys s h.tidy j).2]
    split
    · rfl
    next hj =>
    refine (hf.other _ fun ho => hj ?_).symm
    have := h.indexed j txnId ho
    rwa [keysOf, hget] at this

theorem keysOf_resolve (f : VersionChain V → Except MvccError (VersionChain V)) (u : TxnId) :
    (s.resolve txnId f).keysOf u = if u = txnId then [] else s.keysOf u := by
  unfold resolve
  cases hget : s.intents.get? txnId with
  | none =>
    show s.keysOf u = if u = txnId then [] else s.keysOf u
    split
    next hu => rw [hu, keysOf, hget]; rfl
    · rfl
  | some keys => exact keysOf_erase _ s.store s.intents u

theorem WF.resolve (hf : Resolves txnId f g) (h : s.WF) : (s.resolve txnId f).WF := by
  constructor
  · intro j
    unfold Table.resolve
    cases hget : s.intents.get? txnId with
    | none => exact h.tidy j
    | some keys => exact (resolveKeys_spec hf keys s h.tidy j).1
  · intro j u hu
    rw [view_resolve hf h] at hu
    rw [keysOf_resolve]
    have hne : u ≠ txnId := by
      rintro rfl
      exact hf.done _ hu
    rw [if_neg hne]
    exact h.indexed j u (hf.owner _ u hu)

theorem view_commit (h : s.WF) (commitTs : Nat) (j : Bytes) :
    (s.commit txnId commitTs).view j = (s.view j).commit txnId commitTs :=
  view_resolve (resolves_commit txnId commitTs) h j

theorem view_abort (h : s.WF) (j : Bytes) : (s.abort txnId).view j = (s.view j).abort txnId :=
  view_resolve (resolves_abort txnId) h j

theorem WF.commit (h : s.WF) (commitTs : Nat) : (s.commit txnId commitTs).WF :=
  h.resolve (resolves_commit txnId commitTs)

theorem WF.abort (h : s.WF) : (s.abort txnId).WF :=
  h.resolve (resolves_abort txnId)

/-! ## Batches -/

theorem keysOf_commit (commitTs : Nat) (u : TxnId) :
    (s.commit txnId commitTs).keysOf u = if u = txnId then [] else s.keysOf u :=
  keysOf_resolve _ u

theorem keysOf_abort (u : TxnId) :
    (s.abort txnId).keysOf u = if u = txnId then [] else s.keysOf u :=
  keysOf_resolve _ u

theorem view_replayIntent (h : s.WF) (j : Bytes) :
    (s.replayIntent txnId key value now).view j =
      if j = key then (s.view key).write txnId value else s.view j := by
  rw [replayIntent_eq h, view_record]

theorem keysOf_replayIntent (h : s.WF) (u : TxnId) :
    (s.replayIntent txnId key value now).keysOf u =
      if u = txnId then s.keysOf txnId ++ [key] else s.keysOf u := by
  rw [replayIntent_eq h, keysOf_record]

theorem owner_write (ho : (state.write txnId value).owner = some o) :
    o = txnId ∨ state.owner = some o := by
  unfold write at ho
  split at ho
  · exact .inr ho
  · exact .inl (Option.some.inj ho).symm

theorem WF.replayIntent (h : s.WF) : (s.replayIntent txnId key value now).WF := by
  rw [replayIntent_eq h]
  exact h.record fun o ho => owner_write ho

theorem writeIntentImpl_eq_replay (h : s.WF) (hb : ¬ (s.view key).blocks txnId) :
    s.writeIntentImpl txnId key value now = .ok (s.replayIntent txnId key value now) := by
  rw [writeIntentImpl_of_not_blocks h hb, replayIntent_eq h, write, if_neg hb]

theorem not_blocks_write (hb : ¬ state.blocks txnId) :
    ¬ (state.write txnId value).blocks txnId := by
  rw [write, if_neg hb]
  exact fun hb' => hb'.2 rfl

/-- The writes of a batch, one after the other. -/
def replayAll (s : Table V) (txnId : TxnId) (ops : List (IntentOperation V)) (now : Nat) :
    Table V :=
  ops.foldl (fun s op => s.replayIntent txnId op.key op.value now) s

theorem foldlM_write_eq (ops : List (IntentOperation V)) (s : Table V) (h : s.WF)
    (hb : ∀ op ∈ ops, ¬ (s.view op.key).blocks txnId) :
    ops.foldlM (fun s op => s.writeIntentImpl txnId op.key op.value now) s =
      .ok (s.replayAll txnId ops now) := by
  induction ops generalizing s with
  | nil => rfl
  | cons op ops ih =>
    rw [foldlM_cons, writeIntentImpl_eq_replay h (hb op mem_cons_self)]
    refine ih _ h.replayIntent fun op' hop' => ?_
    rw [view_replayIntent h]
    split
    · exact not_blocks_write (hb op mem_cons_self)
    · exact hb op' (mem_cons_of_mem _ hop')

theorem batchConflicts_iff (h : s.WF) (ops : List (IntentOperation V)) :
    s.batchConflicts txnId ops = true ↔ ∃ op ∈ ops, (s.view op.key).blocks txnId := by
  rw [batchConflicts, any_eq_true]
  refine exists_congr fun op => and_congr_right fun _ => ?_
  have hact : (s.store.get? op.key).bind (·.activeIntent) = (s.chainAt op.key).activeIntent := by
    rw [chainAt]
    cases s.store.get? op.key <;> rfl
  rw [hact, h.chainAt_eq, activeIntent_chain]
  unfold blocks owner
  cases (s.view op.key).pending <;> simp [MvccValue.intent]

theorem writeIntentBatch_of_not_blocks (h : s.WF)
    (hb : ∀ op ∈ ops, ¬ (s.view op.key).blocks txnId) :
    s.writeIntentBatch txnId ops now = .ok (s.replayAll txnId ops now) := by
  have hc : ¬ s.batchConflicts txnId ops = true := by
    rw [batchConflicts_iff h]
    rintro ⟨op, hop, hblock⟩
    exact hb op hop hblock
  rw [writeIntentBatch, if_neg hc, foldlM_write_eq ops s h hb]

theorem writeIntentBatch_of_blocks (h : s.WF) (hb : ∃ op ∈ ops, (s.view op.key).blocks txnId) :
    s.writeIntentBatch txnId ops now = .error (.writeConflict txnId) := by
  rw [writeIntentBatch, if_pos ((batchConflicts_iff h ops).mpr hb)]

theorem WF.replayAll (h : s.WF) (ops : List (IntentOperation V)) :
    (s.replayAll txnId ops now).WF := by
  induction ops generalizing s with
  | nil => exact h
  | cons op ops ih => exact ih h.replayIntent

theorem WF.commitBatch (h : s.WF) (commits : List (TxnId × Nat)) : (s.commitBatch commits).WF := by
  induction commits generalizing s with
  | nil => exact h
  | cons c commits ih => exact ih (h.commit c.2)

theorem view_commitBatch_of_owner_ne (h : s.WF) (commits : List (TxnId × Nat))
    (hne : ∀ c ∈ commits, (s.view j).owner ≠ some c.1) :
    (s.commitBatch commits).view j = s.view j := by
  induction commits generalizing s with
  | nil => rfl
  | cons c commits ih =>
    have hc : (s.commit c.1 c.2).view j = s.view j := by
      rw [view_commit h, commit_of_owner_ne (hne c mem_cons_self)]
    rw [commitBatch, foldl_cons, ← commitBatch, ih (h.commit c.2) fun d hd => ?_, hc]
    rw [hc]
    exact hne d (mem_cons_of_mem _ hd)

/-! ## Savepoints -/

theorem abort_of_blocks (hb : state.blocks txnId) : state.abort txnId = state := by
  rw [KeyState.abort, if_neg hb.2]

theorem owner_abort_of_not_blocks (hb : ¬ state.blocks txnId) :
    (state.abort txnId).owner = none := by
  unfold KeyState.abort
  split
  · rfl
  next ho =>
  by_contra hn
  exact hb ⟨hn, ho⟩

theorem view_replaceIntent (h : s.WF) (r : IntentReplacement V) (j : Bytes) :
    (s.replaceIntent txnId key r now).1.view j =
      if j = key then (s.view key).replace txnId r else s.view j := by
  have hdrop : (s.chainAt key).dropIntentsOf txnId = ((s.view key).abort txnId).chain := by
    rw [h.chainAt_eq, dropIntentsOf_chain]
  have hwith : ∀ v : Option V,
      (s.replaceWith txnId key ((s.view key).abort txnId).chain v now).1.view j =
        if j = key then (s.view key).write txnId v else s.view j := by
    intro v
    unfold replaceWith
    rw [writeIntentImpl_chain]
    by_cases hb : (s.view key).blocks txnId
    · obtain ⟨o, ho, hne⟩ := blocks_iff.mp hb
      rw [abort_of_blocks hb, ho]
      simp only [ne_eq, hne, not_false_eq_true, if_true]
      rw [view_insert_chain, write, if_pos hb]
    rw [owner_abort_of_not_blocks hb]
    simp only
    rw [view_insert_chain, write, if_neg hb]
    have : ((s.view key).abort txnId).setPending (some (txnId, v)) =
        (s.view key).setPending (some (txnId, v)) := by
      unfold KeyState.abort
      split <;> rfl
    rw [this]
  unfold replaceIntent
  rw [hdrop]
  cases r with
  | put v => exact hwith (some v)
  | delete => exact hwith none
  | clear => exact view_insert_chain _ _ j

theorem mem_keysOf_replaceWith (hs : state = (s.view key).abort txnId) :
    j ∈ (s.replaceWith txnId key state.chain value now).1.keysOf u ↔
      j ∈ s.keysOf u ∨ (u = txnId ∧ j = key ∧ ¬ (s.view key).blocks txnId) := by
  subst hs
  unfold replaceWith
  rw [writeIntentImpl_chain]
  by_cases hb : (s.view key).blocks txnId
  · obtain ⟨o, ho, hne⟩ := blocks_iff.mp hb
    rw [abort_of_blocks hb, ho]
    simp only [ne_eq, hne, not_false_eq_true, if_true, hb, not_true_eq_false, and_false, or_false]
    rfl
  rw [owner_abort_of_not_blocks hb]
  simp only [hb, not_false_eq_true, and_true]
  rw [keysOf_pushIntent _ s.store]
  split
  next hu => subst hu; simp
  next hu => simp [hu]

theorem keysOf_clear (u : TxnId) :
    (s.replaceIntent txnId key .clear now).1.keysOf u =
      if u = txnId then (s.keysOf u).filter (· ≠ key) else s.keysOf u := by
  unfold replaceIntent
  cases hget : s.intents.get? txnId with
  | none =>
    show s.keysOf u = _
    split
    next hu => rw [hu, keysOf, hget]; rfl
    · rfl
  | some keys =>
    have hkeys : (s.keysOf txnId).filter (· ≠ key) =
        (keys.filter fun e => decide (e.1 ≠ key)).map (·.1) := by
      rw [keysOf, hget, Option.getD_some, filter_map]
      rfl
    simp only
    split
    next hempty =>
      rw [keysOf_erase _ s.store]
      split
      next hu => rw [hu, hkeys, isEmpty_iff.mp hempty, map_nil]
      · rfl
    simp only [keysOf, OrdMap.get?_insert]
    split
    next hu =>
      rw [hu]
      exact hkeys.symm
    · rfl

theorem mem_keysOf_clear :
    j ∈ (s.replaceIntent txnId key .clear now).1.keysOf u ↔
      j ∈ s.keysOf u ∧ (u = txnId → j ≠ key) := by
  rw [keysOf_clear]
  split
  next hu => simp [hu]
  next hu => simp [hu]

theorem WF.replaceIntent (h : s.WF) (r : IntentReplacement V) :
    (s.replaceIntent txnId key r now).1.WF := by
  have hdrop : (s.chainAt key).dropIntentsOf txnId = ((s.view key).abort txnId).chain := by
    rw [h.chainAt_eq, dropIntentsOf_chain]
  have htidy : ∀ v : Option V, ∀ j,
      ((s.replaceWith txnId key ((s.view key).abort txnId).chain v now).1.chainAt j).Tidy := by
    intro v j
    unfold replaceWith
    rw [writeIntentImpl_chain]
    cases ((s.view key).abort txnId).owner with
    | none => exact tidy_insert_chain h _ _ j
    | some o =>
      simp only
      split
      next hw =>
        split at hw
        · cases hw
        cases hw
        exact tidy_insert_chain h _ _ j
      · exact tidy_insert_chain h _ _ j
  constructor
  · intro j
    unfold Table.replaceIntent
    rw [hdrop]
    cases r with
    | put v => exact htidy (some v) j
    | delete => exact htidy none j
    | clear => exact tidy_insert_chain h _ _ j
  · intro j u hu
    rw [view_replaceIntent h] at hu
    have hput : ∀ v : Option V, (if j = key then (s.view key).write txnId v else s.view j).owner =
        some u → j ∈ s.keysOf u ∨ (u = txnId ∧ j = key ∧ ¬ (s.view key).blocks txnId) := by
      intro v hv
      split at hv
      next hj =>
        subst hj
        unfold write at hv
        split at hv
        · exact .inl (h.indexed j u hv)
        next hb => exact .inr ⟨(Option.some.inj hv).symm, rfl, hb⟩
      · exact .inl (h.indexed j u hv)
    cases r with
    | put v =>
      rw [Table.replaceIntent, hdrop]
      exact (mem_keysOf_replaceWith rfl).mpr (hput (some v) hu)
    | delete =>
      rw [Table.replaceIntent, hdrop]
      exact (mem_keysOf_replaceWith rfl).mpr (hput none hu)
    | clear =>
      rw [mem_keysOf_clear]
      split at hu
      next hj =>
        subst hj
        refine ⟨h.indexed j u ((resolves_abort txnId).owner _ u hu), ?_⟩
        rintro rfl
        exact absurd hu ((resolves_abort u).done _)
      next hj => exact ⟨h.indexed j u hu, fun _ => hj⟩

end Table

end NodusDb
