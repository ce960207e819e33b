import NodusDb.Lib.OrdMap

/-!
# Changes over a map

A set of changes gives some keys a new value and takes others away. `overlay` makes the
changes one after the other, `get?_overlay` says what is found afterwards.
-/

namespace OrdMap

open List

variable {K V W : Type} [LinearOrder K]

def update (m : OrdMap K V) (k : K) : Option V → OrdMap K V
  | some v => m.insert k v
  | none => m.erase k

theorem get?_update (m : OrdMap K V) (k j : K) (o : Option V) :
    (m.update k o).get? j = if j = k then o else m.get? j := by
  cases o with
  | some v => exact get?_insert m k j v
  | none => exact get?_erase m k j

/-- Make the changes in the order of the keys. A change may leave a key without a value. -/
def overlay (f : W → Option V) (changes : OrdMap K W) (m : OrdMap K V) : OrdMap K V :=
  changes.entries.foldl (fun m e => m.update e.1 (f e.2)) m

theorem get?_foldl_update (f : W → Option V) {l : List (K × W)}
    (hl : l.Pairwise fun a b => a.1 < b.1) (m : OrdMap K V) (k : K) :
    (l.foldl (fun m e => m.update e.1 (f e.2)) m).get? k =
      match lookup k l with
      | some w => f w
      | none => m.get? k := by
  induction l generalizing m with
  | nil => rfl
  | cons e l ih =>
    obtain ⟨a, w⟩ := e
    rw [pairwise_cons] at hl
    rw [foldl_cons, ih hl.2, get?_update, lookup]
    by_cases hk : k = a
    · -- The key is not listed again.
      have hnone : lookup k l = none := by
        rw [← Option.not_isSome_iff_eq_none, Option.isSome_iff_exists]
        rintro ⟨v, hv⟩
        exact lt_irrefl a (hk ▸ hl.1 _ (mem_of_lookup hv))
      rw [hnone, if_pos hk, if_pos hk]
    · rw [if_neg hk, if_neg hk]

theorem get?_overlay (f : W → Option V) (changes : OrdMap K W) (m : OrdMap K V) (k : K) :
    (overlay f changes m).get? k =
      match changes.get? k with
      | some w => f w
      | none => m.get? k :=
  get?_foldl_update f changes.sorted m k

/-- The pairs of a list as a map. A later pair replaces an earlier one. -/
def ofList (l : List (K × V)) : OrdMap K V := l.foldl (fun m e => m.insert e.1 e.2) empty

theorem get?_ofList {g : K → Option V} {l : List (K × V)} (h : ∀ e ∈ l, g e.1 = some e.2)
    (k : K) : (ofList l).get? k = if k ∈ l.map (·.1) then g k else none := by
  have hfold : ∀ (l : List (K × V)) (m : OrdMap K V), (∀ e ∈ l, g e.1 = some e.2) →
      (l.foldl (fun m e => m.insert e.1 e.2) m).get? k =
        if k ∈ l.map (·.1) then g k else m.get? k := by
    intro l
    induction l with
    | nil => intro m _; rfl
    | cons e l ih =>
      intro m h
      rw [foldl_cons, ih _ fun e he => h e (mem_cons_of_mem _ he), get?_insert, map_cons]
      by_cases hl : k ∈ l.map (·.1)
      · rw [if_pos hl, if_pos (mem_cons_of_mem _ hl)]
      by_cases hk : k = e.1
      · rw [if_neg hl, if_pos hk, if_pos (hk ▸ mem_cons_self), hk, h e mem_cons_self]
      rw [if_neg hl, if_neg hk, if_neg]
      rw [mem_cons, not_or]
      exact ⟨hk, hl⟩
  exact hfold l empty h

theorem entries_nodup (m : OrdMap K V) : m.entries.Nodup := by
  refine List.Pairwise.imp (fun {a b} hlt => ?_) m.sorted
  rintro rfl
  exact lt_irrefl _ hlt

theorem eq_of_values {m m' : OrdMap K V} (h : ∀ k v, m.get? k = some v → m'.get? k = some v)
    (hvalues : m.values = m'.values) : m = m' := by
  have hsubset : m.entries ⊆ m'.entries := by
    rintro ⟨k, v⟩ he
    exact mem_entries.mpr (h k v (mem_entries.mp he))
  have hlength : m'.entries.length ≤ m.entries.length := by
    have := congrArg length hvalues
    rw [values, values, length_map, length_map] at this
    exact this.ge
  have hperm : m.entries.Perm m'.entries :=
    (m.entries_nodup.subperm hsubset).perm_of_length_le hlength
  refine ext_get fun k => Option.ext fun v => ?_
  rw [← mem_entries, ← mem_entries]
  exact hperm.mem_iff

theorem values_filter (m : OrdMap K V) (p : V → Bool) :
    (m.filter fun _ v => p v).values = m.values.filter p := by
  rw [values, values, filter_map]
  rfl

end OrdMap
