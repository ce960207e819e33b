import NodusDb.Mvcc.Chain

/-!
# Sorted tables

An SSTable is a run of key-sorted entries cut into blocks, with a sparse index and a Bloom filter.
The byte layout is left out; where a block ends depends on the encoded length of a chain
(`ChainCodec`). A table built from a map answers like the map, whatever the codec: `get_build`,
`iter_build`, `rangeIter_build`.
-/

namespace NodusDb

open List

/-- How many bytes the serializer uses for a chain. -/
class ChainCodec where
  encodedLen : VersionChain Bytes → Nat

/-- The length of an unsigned integer in bincode's standard configuration. -/
def varintLen (n : Nat) : Nat :=
  if n < 251 then 1 else if n < 2 ^ 16 then 3 else if n < 2 ^ 32 then 5 else 9

/-- The lengths of bincode's standard configuration. -/
@[reducible] def bincode : ChainCodec where
  encodedLen c := varintLen c.versions.length + (c.versions.map fun v =>
    (match v.value with | some bytes => 1 + varintLen bytes.length + bytes.length | none => 1) +
    varintLen v.version + (if v.txnId.isSome then 18 else 1) + 1).sum

namespace Lsm

abbrev Entry := Bytes × VersionChain Bytes

/-- What a table file or the memtable holds. -/
abbrev Layer := OrdMap Bytes (VersionChain Bytes)

/-! ## The Bloom filter -/

def fnv1a (data : Bytes) (seed : UInt64) : UInt64 :=
  data.foldl (fun hash b => (hash ^^^ b.toUInt64) * 0x100000001b3) (0xcbf29ce484222325 ^^^ seed)

structure Bloom where
  numBits : Nat
  numHashes : Nat
  bits : List Bool
  deriving DecidableEq, Repr

namespace Bloom

/-- About ten bits a key, rounded up to whole bytes. -/
def new (numKeys : Nat) : Bloom :=
  let numBits := max 64 (min (numKeys * 10) u64Max)
  ⟨numBits, 7, List.replicate ((numBits + 7) / 8 * 8) false⟩

def positions (b : Bloom) (key : Bytes) : List Nat :=
  let h1 := fnv1a key 0
  let h2 := fnv1a key 0x9e3779b97f4a7c15 ||| 1
  (List.range b.numHashes).map fun i => (h1 + UInt64.ofNat i * h2).toNat % b.numBits

def add (b : Bloom) (key : Bytes) : Bloom :=
  { b with bits := (b.positions key).foldl (fun bits pos => bits.set pos true) b.bits }

def maybeContains (b : Bloom) (key : Bytes) : Bool :=
  (b.positions key).all fun pos => b.bits.getD pos false

end Bloom

/-! ## Blocks -/

/-- Target size of a block before a new one is started. -/
def blockSize : Nat := 4096

structure Block where
  firstKey : Bytes
  entries : List Entry
  deriving DecidableEq

structure Sstable where
  blocks : List Block
  bloom : Bloom
  deriving DecidableEq

section Build

variable [ChainCodec]

/-- The length of an encoded entry: two length fields, the key and the chain. -/
def entryLen (e : Entry) : Nat := 4 + e.1.length + 4 + ChainCodec.encodedLen e.2

/-- Cut a run of entries into blocks; `open'` is the block being filled and
`size` its length so far. -/
def cutBlocks : List Entry → List Entry → Nat → List Block
  | [], [], _ => []
  | [], e :: open', _ => [⟨e.1, e :: open'⟩]
  | e :: es, open', size =>
    if blockSize ≤ size + entryLen e then
      ⟨((open' ++ [e]).head (by simp)).1, open' ++ [e]⟩ :: cutBlocks es [] 0
    else cutBlocks es (open' ++ [e]) (size + entryLen e)

namespace Sstable

def build (data : Layer) : Sstable where
  blocks := cutBlocks data.entries [] 0
  bloom := data.entries.foldl (fun bloom e => bloom.add e.1) (Bloom.new data.size)

end Sstable

end Build

namespace Sstable

/-- The blocks whose first key is at or below `key`. -/
def candidates (t : Sstable) (key : Bytes) : List Block :=
  t.blocks.takeWhile fun b => decide (b.firstKey ≤ key)

/-- Skip by the filter, find the one block that could hold the key, scan it. -/
def get (t : Sstable) (key : Bytes) : Option (VersionChain Bytes) :=
  if t.bloom.maybeContains key then
    match (t.candidates key).getLast? with
    | some block => OrdMap.lookup key block.entries
    | none => none
  else none

def iter (t : Sstable) : List Entry := t.blocks.flatMap (·.entries)

/-- Start at the block that may hold `start` and stop at the first key that
reaches `stop`. A few keys below `start` may come first. -/
def rangeIter (t : Sstable) (start stop : Bytes) : List Entry :=
  ((t.blocks.drop ((t.candidates start).length - 1)).flatMap (·.entries)).takeWhile fun e =>
    decide (e.1 < stop)

end Sstable

/-! ## The filter never misses a key -/

namespace Bloom

theorem getD_foldl_set (ps : List Nat) (bits : List Bool) (q : Nat) (h : bits.getD q false = true) :
    (ps.foldl (fun bits pos => bits.set pos true) bits).getD q false = true := by
  induction ps generalizing bits with
  | nil => exact h
  | cons p ps ih =>
    refine ih _ ?_
    rw [getD_eq_getElem?_getD, getElem?_set] at *
    split
    · split <;> simp_all
    · exact h

theorem length_foldl_set (ps : List Nat) (bits : List Bool) :
    (ps.foldl (fun bits pos => bits.set pos true) bits).length = bits.length := by
  induction ps generalizing bits with
  | nil => rfl
  | cons p ps ih => rw [foldl_cons, ih, length_set]

theorem getD_foldl_set_mem {ps : List Nat} {bits : List Bool} {q : Nat} (hq : q ∈ ps)
    (hlt : q < bits.length) :
    (ps.foldl (fun bits pos => bits.set pos true) bits).getD q false = true := by
  induction ps generalizing bits with
  | nil => exact absurd hq not_mem_nil
  | cons p ps ih =>
    rw [foldl_cons]
    rcases mem_cons.mp hq with rfl | hq
    · refine getD_foldl_set ps _ q ?_
      simp [getD_eq_getElem?_getD, hlt]
    · exact ih hq (by rwa [length_set])

/-- The filter's own shape: a positive number of bits, all of them stored. -/
def Sized (b : Bloom) : Prop := 0 < b.numBits ∧ b.numBits ≤ b.bits.length

theorem sized_new (n : Nat) : (new n).Sized := by
  refine ⟨lt_of_lt_of_le (by decide) (le_max_left 64 _), ?_⟩
  simp only [new, length_replicate]
  omega

theorem positions_add (b : Bloom) (key key' : Bytes) :
    (b.add key).positions key' = b.positions key' := rfl

variable {b : Bloom}

theorem Sized.add (h : b.Sized) (key : Bytes) : (b.add key).Sized := by
  refine ⟨h.1, ?_⟩
  show b.numBits ≤ (foldl _ b.bits (b.positions key)).length
  rw [length_foldl_set]
  exact h.2

theorem maybeContains_add_self (h : b.Sized) (key : Bytes) :
    (b.add key).maybeContains key = true := by
  rw [maybeContains, positions_add, all_eq_true]
  intro pos hpos
  refine getD_foldl_set_mem hpos ?_
  obtain ⟨i, -, rfl⟩ := mem_map.mp hpos
  exact (Nat.mod_lt _ h.1).trans_le h.2

theorem maybeContains_add (h : b.maybeContains key = true) (key' : Bytes) :
    (b.add key').maybeContains key = true := by
  rw [maybeContains, all_eq_true] at h ⊢
  intro pos hpos
  exact getD_foldl_set _ _ pos (h pos hpos)

theorem maybeContains_foldl {es : List Entry} (hb : b.Sized) {key : Bytes}
    (h : b.maybeContains key = true ∨ key ∈ es.map (·.1)) :
    (es.foldl (fun bloom e => bloom.add e.1) b).maybeContains key = true := by
  induction es generalizing b with
  | nil => exact h.resolve_right not_mem_nil
  | cons e es ih =>
    refine ih (hb.add e.1) ?_
    rcases h with h | h
    · exact .inl (maybeContains_add h e.1)
    rcases mem_cons.mp h with rfl | h
    · exact .inl (maybeContains_add_self hb e.1)
    · exact .inr h

end Bloom

/-! ## Blocks and the index -/

/-- A block is not empty and carries its first key. -/
def Block.Headed (b : Block) : Prop := ∃ e es, b.entries = e :: es ∧ b.firstKey = e.1

section Cut

variable [ChainCodec]

theorem cutBlocks_headed (es open' : List Entry) (size : Nat) :
    ∀ b ∈ cutBlocks es open' size, b.Headed := by
  induction es generalizing open' size with
  | nil =>
    cases open' with
    | nil => intro b hb; exact absurd hb not_mem_nil
    | cons e open' =>
      intro b hb
      rw [cutBlocks, mem_singleton] at hb
      subst hb
      exact ⟨e, open', rfl, rfl⟩
  | cons e es ih =>
    intro b hb
    rw [cutBlocks] at hb
    split at hb
    · rcases mem_cons.mp hb with rfl | hb
      · cases open' with
        | nil => exact ⟨e, [], rfl, rfl⟩
        | cons f open' => exact ⟨f, open' ++ [e], rfl, rfl⟩
      · exact ih _ _ b hb
    · exact ih _ _ b hb

theorem flatMap_cutBlocks (es open' : List Entry) (size : Nat) :
    (cutBlocks es open' size).flatMap (·.entries) = open' ++ es := by
  induction es generalizing open' size with
  | nil => cases open' <;> simp [cutBlocks]
  | cons e es ih =>
    rw [cutBlocks]
    split
    · rw [flatMap_cons, ih]
      simp
    · rw [ih]
      simp

end Cut

section Search

variable {key : Bytes}

theorem lookup_append (l l' : List Entry) :
    OrdMap.lookup key (l ++ l') = (OrdMap.lookup key l).or (OrdMap.lookup key l') := by
  induction l with
  | nil => rfl
  | cons e l ih =>
    obtain ⟨k, c⟩ := e
    simp only [cons_append, OrdMap.lookup]
    split
    · rfl
    · exact ih

theorem lookup_eq_none {l : List Entry} (h : ∀ e ∈ l, e.1 ≠ key) : OrdMap.lookup key l = none := by
  cases hl : OrdMap.lookup key l with
  | none => rfl
  | some c => exact absurd rfl (h _ (OrdMap.mem_of_lookup hl))

theorem lt_of_candidate {bs bs' : List Block} {b' : Block} {x : Entry} (hh : ∀ b ∈ bs, b.Headed)
    (hc : (bs.takeWhile fun b => decide (b.firstKey ≤ key)) = b' :: bs')
    (hx : ∀ e ∈ bs.flatMap (·.entries), x.1 < e.1) : x.1 < key := by
  have hb' : b' ∈ bs.takeWhile fun b => decide (b.firstKey ≤ key) := hc ▸ mem_cons_self
  have hmem : b' ∈ bs := (takeWhile_sublist _).mem hb'
  obtain ⟨e, es, hes, hfirst⟩ := hh b' hmem
  have hlt : x.1 < e.1 := hx e (mem_flatMap.mpr ⟨b', hmem, hes ▸ mem_cons_self⟩)
  rw [← hfirst] at hlt
  exact hlt.trans_le (by simpa using mem_takeWhile_imp hb')

theorem lookup_candidates (key : Bytes) {bs : List Block} (hh : ∀ b ∈ bs, b.Headed)
    (hs : (bs.flatMap (·.entries)).Pairwise fun a b => a.1 < b.1) :
    (match (bs.takeWhile fun b => decide (b.firstKey ≤ key)).getLast? with
      | some b => OrdMap.lookup key b.entries
      | none => none) = OrdMap.lookup key (bs.flatMap (·.entries)) := by
  induction bs with
  | nil => rfl
  | cons b bs ih =>
    obtain ⟨e, es, hes, hfirst⟩ := hh b mem_cons_self
    have hh' : ∀ b ∈ bs, b.Headed := fun b hb => hh b (mem_cons_of_mem _ hb)
    rw [flatMap_cons] at hs ⊢
    obtain ⟨hsb, hsbs, hcross⟩ := pairwise_append.mp hs
    by_cases hle : b.firstKey ≤ key
    · rw [takeWhile_cons_of_pos (by simpa using hle), lookup_append]
      cases hc : bs.takeWhile fun b => decide (b.firstKey ≤ key) with
      | nil =>
        -- The next block, if any, starts above the key.
        have hnone : OrdMap.lookup key (bs.flatMap (·.entries)) = none := by
          rw [← ih hh' hsbs, hc]
          rfl
        rw [hnone, Option.or_none]
        rfl
      | cons b' bs' =>
        have hnone : OrdMap.lookup key b.entries = none :=
          lookup_eq_none fun x hx hk => (lt_of_candidate hh' hc (hcross x hx)).ne hk
        rw [hnone, Option.none_or, ← ih hh' hsbs, hc, getLast?_cons_cons]
    · rw [takeWhile_cons_of_neg (by simpa using hle)]
      refine (lookup_eq_none fun x hx hk => ?_).symm
      rw [hfirst] at hle
      have hex : e.1 ≤ x.1 := by
        rw [hes] at hs hx
        rcases mem_append.mp hx with hx | hx
        · rcases mem_cons.mp hx with rfl | hx
          · exact le_rfl
          · exact ((pairwise_cons.mp (pairwise_append.mp hs).1).1 x hx).le
        · exact ((pairwise_append.mp hs).2.2 e mem_cons_self x hx).le
      exact hle (hk ▸ hex)

/-- On sorted entries, stopping at the first key that reaches the bound keeps
exactly the keys below it. -/
theorem takeWhile_lt_eq_filter {l : List Entry} {stop : Bytes}
    (hs : l.Pairwise fun a b => a.1 < b.1) :
    l.takeWhile (fun e => decide (e.1 < stop)) = l.filter fun e => decide (e.1 < stop) := by
  induction l with
  | nil => rfl
  | cons e l ih =>
    obtain ⟨he, hl⟩ := pairwise_cons.mp hs
    by_cases hlt : e.1 < stop
    · rw [takeWhile_cons_of_pos (by simpa using hlt),
        filter_cons_of_pos (by simpa using hlt), ih hl]
    rw [takeWhile_cons_of_neg (by simpa using hlt),
      filter_cons_of_neg (by simpa using hlt)]
    refine (filter_eq_nil_iff.mpr fun x hx => ?_).symm
    have hex := he x hx
    simpa using (not_lt.mp hlt).trans hex.le

theorem filter_drop_candidates (start : Bytes) {bs : List Block} (hh : ∀ b ∈ bs, b.Headed)
    (hs : (bs.flatMap (·.entries)).Pairwise fun a b => a.1 < b.1) :
    ((bs.drop ((bs.takeWhile fun b => decide (b.firstKey ≤ start)).length - 1)).flatMap
      (·.entries)).filter (fun e => decide (start ≤ e.1)) =
    (bs.flatMap (·.entries)).filter fun e => decide (start ≤ e.1) := by
  induction bs with
  | nil => rfl
  | cons b bs ih =>
    have hh' : ∀ b ∈ bs, b.Headed := fun b hb => hh b (mem_cons_of_mem _ hb)
    rw [flatMap_cons] at hs
    obtain ⟨-, hsbs, hcross⟩ := pairwise_append.mp hs
    by_cases hle : b.firstKey ≤ start
    · rw [takeWhile_cons_of_pos (by simpa using hle)]
      cases hc : bs.takeWhile fun b => decide (b.firstKey ≤ start) with
      | nil => rfl
      | cons b' bs' =>
        have hskip : b.entries.filter (fun e => decide (start ≤ e.1)) = [] := by
          refine filter_eq_nil_iff.mpr fun x hx => ?_
          simpa using lt_of_candidate hh' hc (hcross x hx)
        have hih := ih hh' hsbs
        rw [hc] at hih
        rw [flatMap_cons, filter_append, hskip, nil_append, ← hih]
        rfl
    · rw [takeWhile_cons_of_neg (by simpa using hle)]
      rfl

end Search

/-! ## A table answers like the map it was built from -/

namespace Sstable

variable [ChainCodec] (data : Layer)

theorem blocks_build_headed : ∀ b ∈ (build data).blocks, b.Headed :=
  cutBlocks_headed data.entries [] 0

@[simp] theorem iter_build : (build data).iter = data.entries := by
  show (cutBlocks data.entries [] 0).flatMap (·.entries) = data.entries
  rw [flatMap_cutBlocks, nil_append]

theorem blocks_build_sorted :
    ((build data).blocks.flatMap (·.entries)).Pairwise fun a b => a.1 < b.1 := by
  have h := iter_build data
  rw [iter] at h
  rw [h]
  exact data.sorted

theorem get_build (key : Bytes) : (build data).get key = data.get? key := by
  have hsearch := lookup_candidates key (blocks_build_headed data)
    (blocks_build_sorted data)
  have hiter := iter_build data
  rw [iter] at hiter
  rw [hiter] at hsearch
  unfold get
  cases hb : (build data).bloom.maybeContains key with
  | true => exact hsearch
  | false =>
    cases hget : data.get? key with
    | none => rfl
    | some c =>
      -- The filter reports every key of the map.
      have hmem : key ∈ data.entries.map (·.1) :=
        mem_map.mpr ⟨(key, c), OrdMap.mem_entries.mpr hget, rfl⟩
      have := Bloom.maybeContains_foldl (Bloom.sized_new data.size) (.inr hmem)
      exact absurd (hb.symm.trans this) Bool.false_ne_true

theorem rangeIter_build (start stop : Bytes) :
    ((build data).rangeIter start stop).filter (fun e => decide (start ≤ e.1)) =
      data.range start stop := by
  have hiter := iter_build data
  rw [iter] at hiter
  have hsub : (((build data).blocks.drop
      (((build data).candidates start).length - 1)).flatMap (·.entries)).Sublist
      ((build data).blocks.flatMap (·.entries)) := (drop_sublist _ _).flatMap _
  have hdrop := filter_drop_candidates start (blocks_build_headed data)
    (blocks_build_sorted data)
  rw [rangeIter, takeWhile_lt_eq_filter ((blocks_build_sorted data).sublist hsub),
    filter_comm, candidates, hdrop, hiter, OrdMap.range, filter_filter]
  refine congrArg (fun p => data.entries.filter p) (funext fun e => ?_)
  rw [Bool.eq_iff_iff, Bool.and_eq_true, Bool.and_eq_true, and_comm]
  simp only [decide_eq_true_eq]

end Sstable

end Lsm

end NodusDb
