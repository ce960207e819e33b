import Mathlib

/-!
# Ordered maps

A finite map kept as a key-sorted association list. It stands for the ordered
and the hashed maps of a program alike: iteration is the `entries` list, and a
proof reads the map through `get?`.
-/

/-- A finite map with strictly increasing keys. -/
structure OrdMap (K V : Type) [LinearOrder K] where
  entries : List (K × V)
  sorted : entries.Pairwise (fun a b => a.1 < b.1)

namespace OrdMap

open List

variable {K V W : Type} [LinearOrder K]

instance [DecidableEq V] : DecidableEq (OrdMap K V) := fun a b =>
  decidable_of_iff (a.entries = b.entries) (by cases a; cases b; simp)

/-! ## Lists of entries -/

/-- The value listed first for `k`. -/
def lookup (k : K) : List (K × V) → Option V
  | [] => none
  | (a, v) :: l => if k = a then some v else lookup k l

/-- Insert in key order; an existing entry of the key is replaced. -/
def put (k : K) (v : V) : List (K × V) → List (K × V)
  | [] => [(k, v)]
  | (a, w) :: l =>
    if k < a then (k, v) :: (a, w) :: l
    else if k = a then (k, v) :: l
    else (a, w) :: put k v l

variable {k : K} {l : List (K × V)} {v : V} {m : OrdMap K V}

theorem mem_put {e : K × V} (h : e ∈ put k v l) : e = (k, v) ∨ e ∈ l := by
  induction l with
  | nil => exact .inl (by simpa [put] using h)
  | cons a l ih =>
    obtain ⟨a, w⟩ := a
    simp only [put] at h
    split at h
    · rcases mem_cons.mp h with rfl | h
      · exact .inl rfl
      · exact .inr h
    split at h
    · rcases mem_cons.mp h with rfl | h
      · exact .inl rfl
      · exact .inr (mem_cons_of_mem _ h)
    rcases mem_cons.mp h with rfl | h
    · exact .inr mem_cons_self
    rcases ih h with rfl | h
    · exact .inl rfl
    · exact .inr (mem_cons_of_mem _ h)

theorem put_sorted (k : K) (v : V) (h : l.Pairwise (fun a b => a.1 < b.1)) :
    (put k v l).Pairwise (fun a b => a.1 < b.1) := by
  induction l with
  | nil => simp [put]
  | cons a l ih =>
    obtain ⟨a, w⟩ := a
    obtain ⟨ha, hl⟩ := pairwise_cons.mp h
    simp only [put]
    split
    next hk =>
      refine pairwise_cons.mpr ⟨fun e he => ?_, h⟩
      rcases mem_cons.mp he with rfl | he
      · exact hk
      · exact lt_trans hk (ha e he)
    next hk =>
    split
    next heq =>
      subst heq
      exact pairwise_cons.mpr ⟨ha, hl⟩
    next hne =>
    refine pairwise_cons.mpr ⟨fun e he => ?_, ih hl⟩
    rcases mem_put he with rfl | he
    · exact lt_of_le_of_ne (not_lt.mp hk) (Ne.symm hne)
    · exact ha e he

theorem lookup_put (k j : K) (v : V) (l : List (K × V)) :
    lookup j (put k v l) = if j = k then some v else lookup j l := by
  induction l with
  | nil => simp [put, lookup]
  | cons a l ih =>
    obtain ⟨a, w⟩ := a
    simp only [put]
    split
    · simp [lookup]
    split
    next heq =>
      subst heq
      simp only [lookup]
      split <;> rfl
    next hne =>
    simp only [lookup, ih]
    split
    next hj =>
      subst hj
      rw [if_neg (Ne.symm hne)]
    · rfl

theorem length_put (h : lookup k l = none) : (put k v l).length = l.length + 1 := by
  induction l with
  | nil => rfl
  | cons a l ih =>
    obtain ⟨a, w⟩ := a
    simp only [lookup] at h
    split at h
    · cases h
    next hne =>
    simp only [put]
    split
    · rfl
    · rw [length_cons, ih h, length_cons]

theorem lookup_of_mem
    (hs : l.Pairwise (fun a b => a.1 < b.1)) (h : (k, v) ∈ l) : lookup k l = some v := by
  induction l with
  | nil => exact absurd h not_mem_nil
  | cons a l ih =>
    obtain ⟨a, w⟩ := a
    obtain ⟨ha, hl⟩ := pairwise_cons.mp hs
    rcases mem_cons.mp h with heq | h
    · cases heq
      simp [lookup]
    · have hlt : a < k := ha _ h
      simp [lookup, ne_of_gt hlt, ih hl h]

theorem mem_of_lookup (h : lookup k l = some v) : (k, v) ∈ l := by
  induction l with
  | nil => simp [lookup] at h
  | cons a l ih =>
    obtain ⟨a, w⟩ := a
    simp only [lookup] at h
    split at h
    next hk =>
      cases h
      subst hk
      exact mem_cons_self
    · exact mem_cons_of_mem _ (ih h)

/-! ## The map operations -/

def empty : OrdMap K V := ⟨[], List.Pairwise.nil⟩

def get? (m : OrdMap K V) (k : K) : Option V := lookup k m.entries

def insert (m : OrdMap K V) (k : K) (v : V) : OrdMap K V :=
  ⟨put k v m.entries, put_sorted k v m.sorted⟩

/-- Keep the entries that satisfy `p`. -/
def filter (m : OrdMap K V) (p : K → V → Bool) : OrdMap K V :=
  ⟨m.entries.filter fun e => p e.1 e.2, m.sorted.filter _⟩

def erase (m : OrdMap K V) (k : K) : OrdMap K V := m.filter fun a _ => a ≠ k

/-- Replace every value by a function of its key and value. -/
def mapVals (m : OrdMap K V) (f : K → V → W) : OrdMap K W :=
  ⟨m.entries.map fun e => (e.1, f e.1 e.2), by
    rw [List.pairwise_map]
    exact m.sorted⟩

def contains (m : OrdMap K V) (k : K) : Bool := (m.get? k).isSome

def size (m : OrdMap K V) : Nat := m.entries.length

def keys (m : OrdMap K V) : List K := m.entries.map (·.1)

def values (m : OrdMap K V) : List V := m.entries.map (·.2)

/-- The entries with a key in `[lo, hi)`, in key order. -/
def range (m : OrdMap K V) (lo hi : K) : List (K × V) :=
  m.entries.filter fun e => decide (lo ≤ e.1) && decide (e.1 < hi)

/-! ## Reading an updated map -/

theorem mem_entries : (k, v) ∈ m.entries ↔ m.get? k = some v :=
  ⟨lookup_of_mem m.sorted, mem_of_lookup⟩

theorem mem_values : v ∈ m.values ↔ ∃ k, m.get? k = some v := by
  simp only [values, mem_map]
  constructor
  · rintro ⟨⟨k, w⟩, h, rfl⟩
    exact ⟨k, mem_entries.mp h⟩
  · rintro ⟨k, h⟩
    exact ⟨(k, v), mem_entries.mpr h, rfl⟩

theorem mem_keys : k ∈ m.keys ↔ m.get? k ≠ none := by
  rw [Option.ne_none_iff_exists']
  simp only [keys, mem_map, ← mem_entries]
  constructor
  · rintro ⟨⟨j, v⟩, he, rfl⟩
    exact ⟨v, he⟩
  · rintro ⟨v, he⟩
    exact ⟨(k, v), he, rfl⟩

theorem keys_nodup (m : OrdMap K V) : m.keys.Nodup :=
  pairwise_map.mpr (m.sorted.imp ne_of_lt)

/-- A map with as many keys as another one, all of them keys of that one, has all its keys. -/
theorem keys_subset_of_size {n : OrdMap K W} (h : ∀ k ∈ m.keys, k ∈ n.keys)
    (hle : n.size ≤ m.size) (hk : k ∈ n.keys) : k ∈ m.keys := by
  have hsub : m.keys.Subperm n.keys := m.keys_nodup.subperm h
  refine (hsub.perm_of_length_le ?_).mem_iff.mpr hk
  rw [keys, keys, length_map, length_map]
  exact hle

theorem mem_range {lo hi : K} : (k, v) ∈ m.range lo hi ↔ m.get? k = some v ∧ lo ≤ k ∧ k < hi := by
  simp [range, mem_filter, mem_entries]

@[simp] theorem get?_empty (k : K) : (empty : OrdMap K V).get? k = none := rfl

theorem get?_insert (m : OrdMap K V) (k j : K) (v : V) :
    (m.insert k v).get? j = if j = k then some v else m.get? j :=
  lookup_put k j v m.entries

@[simp] theorem get?_insert_self (m : OrdMap K V) (k : K) (v : V) :
    (m.insert k v).get? k = some v := by
  simp [get?_insert]

@[simp] theorem size_empty : (empty : OrdMap K V).size = 0 := rfl

theorem size_insert (h : m.get? k = none) : (m.insert k v).size = m.size + 1 :=
  length_put h

theorem get?_insert_of_ne {j : K} (h : j ≠ k) : (m.insert k v).get? j = m.get? j := by
  simp [get?_insert, h]

theorem get?_filter (m : OrdMap K V) (p : K → V → Bool) (k : K) :
    (m.filter p).get? k = (m.get? k).filter (p k) := by
  cases h : m.get? k with
  | none =>
    cases h' : (m.filter p).get? k with
    | none => rfl
    | some v =>
      have hm := mem_entries.mpr h'
      simp only [filter, mem_filter] at hm
      rw [mem_entries.mp hm.1] at h
      cases h
  | some v =>
    have hm := mem_entries.mpr h
    cases hp : p k v with
    | true =>
      simp only [Option.filter, hp, if_true]
      refine mem_entries.mp ?_
      simp only [filter, mem_filter]
      exact ⟨hm, hp⟩
    | false =>
      cases h' : (m.filter p).get? k with
      | none => simp [Option.filter, hp]
      | some w =>
        have hm' := mem_entries.mpr h'
        simp only [filter, mem_filter] at hm'
        have heq := mem_entries.mp hm'.1
        rw [h] at heq
        cases heq
        rw [hp] at hm'
        exact absurd hm'.2 Bool.false_ne_true

theorem get?_erase (m : OrdMap K V) (k j : K) :
    (m.erase k).get? j = if j = k then none else m.get? j := by
  rw [erase, get?_filter]
  cases m.get? j with
  | none => simp
  | some v =>
    by_cases h : j = k <;> simp [Option.filter, h]

theorem size_erase_lt (h : m.get? k ≠ none) : (m.erase k).size < m.size := by
  obtain ⟨v, hv⟩ := Option.ne_none_iff_exists'.mp h
  refine length_filter_lt_length_iff_exists.mpr ⟨(k, v), mem_entries.mpr hv, ?_⟩
  simp

theorem entries_insert_last (v : V) (h : ∀ j, m.get? j ≠ none → j ≤ k) :
    (m.insert k v).entries = (m.erase k).entries ++ [(k, v)] := by
  obtain ⟨l, hl⟩ := m
  have hle : ∀ e ∈ l, e.1 ≤ k := fun e he =>
    h e.1 (Option.ne_none_iff_exists'.mpr ⟨e.2, mem_entries.mp he⟩)
  show put k v l = l.filter (fun e => decide (e.1 ≠ k)) ++ [(k, v)]
  clear h
  induction l with
  | nil => rfl
  | cons a l ih =>
    obtain ⟨a, w⟩ := a
    obtain ⟨ha, hl⟩ := pairwise_cons.mp hl
    have hak : a ≤ k := hle (a, w) mem_cons_self
    rw [put, if_neg (not_lt.mpr hak)]
    split
    next heq =>
      subst heq
      -- Nothing can follow the largest key.
      have hnil : l = [] := eq_nil_iff_forall_not_mem.mpr fun e he =>
        absurd (ha e he) (not_lt.mpr (hle e (mem_cons_of_mem _ he)))
      subst hnil
      simp
    next hne =>
      rw [ih hl fun e he => hle e (mem_cons_of_mem _ he), filter_cons, if_pos]
      · rfl
      · exact decide_eq_true (Ne.symm hne)

theorem get?_mapVals (m : OrdMap K V) (f : K → V → W) (k : K) :
    (m.mapVals f).get? k = (m.get? k).map (f k) := by
  obtain ⟨l, hl⟩ := m
  simp only [get?, mapVals]
  clear hl
  induction l with
  | nil => rfl
  | cons a l ih =>
    obtain ⟨a, v⟩ := a
    simp only [map_cons, lookup, ih]
    split
    next h => simp [h]
    · rfl

theorem eq_of_lookup {l' : List (K × V)} (hs : l.Pairwise (fun a b => a.1 < b.1))
    (hs' : l'.Pairwise (fun a b => a.1 < b.1)) (h : ∀ k, lookup k l = lookup k l') : l = l' := by
  have hnd : ∀ {l : List (K × V)}, l.Pairwise (fun a b => a.1 < b.1) → l.Nodup :=
    fun hl => hl.imp fun {a b} hab he => by subst he; exact lt_irrefl _ hab
  have hmem : ∀ e, e ∈ l ↔ e ∈ l' := fun e => by
    obtain ⟨k, v⟩ := e
    constructor
    · intro he
      exact mem_of_lookup ((h k) ▸ lookup_of_mem hs he)
    · intro he
      exact mem_of_lookup ((h k).symm ▸ lookup_of_mem hs' he)
  have hperm := (perm_ext_iff_of_nodup (hnd hs) (hnd hs')).mpr hmem
  exact hperm.eq_of_pairwise (fun a b _ _ hab hba => absurd hab (lt_asymm hba)) hs hs'

theorem ext_get {m' : OrdMap K V} (h : ∀ k, m.get? k = m'.get? k) : m = m' := by
  cases m with
  | mk l hl =>
    cases m' with
    | mk l' hl' =>
      have := eq_of_lookup hl hl' h
      subst this
      rfl

end OrdMap
