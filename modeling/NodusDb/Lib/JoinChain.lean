import NodusDb.Lib.Joins

/-!
# Chains of joins

A chain joins a first list with further lists, one after the other. A joined element is
the list of its parts, one for each list; an outer join puts an absent part where a list
has none.
-/

variable {ρ : Type}

structure JoinStep (ρ : Type) where
  keepLeft : Bool
  keepRight : Bool
  on : List ρ → ρ → Bool
  leftAbsent : List ρ
  rightAbsent : ρ
  rows : List ρ

namespace JoinStep

open List

def apply (s : JoinStep ρ) (ls : List (List ρ)) : List (List ρ) :=
  joinOf (fun l r => l ++ [r]) (fun l => l ++ [s.rightAbsent]) (fun r => s.leftAbsent ++ [r])
    s.keepLeft s.keepRight s.on ls s.rows

def chain (steps : List (JoinStep ρ)) (ls : List (List ρ)) : List (List ρ) :=
  steps.foldl (fun ls s => s.apply ls) ls

@[simp] theorem chain_cons (s : JoinStep ρ) (steps : List (JoinStep ρ)) (ls : List (List ρ)) :
    chain (s :: steps) ls = chain steps (s.apply ls) := rfl

section Absent

variable (absent : ρ → Bool)

/-- The steps of a chain whose elements have `n` parts so far. -/
inductive WellFormed : Nat → List (JoinStep ρ) → Prop
  | nil {n : Nat} : WellFormed n []
  | cons {n : Nat} {s : JoinStep ρ} {steps : List (JoinStep ρ)} : s.leftAbsent.length = n →
      s.leftAbsent.all absent = true → absent s.rightAbsent = true → WellFormed (n + 1) steps →
      WellFormed n (s :: steps)

def present (side : List Nat) (x : List ρ) : Bool :=
  !side.all fun i => (x[i]?).all absent

variable {absent} {side : List Nat} {n : Nat} {s : JoinStep ρ} {steps : List (JoinStep ρ)}
variable {ls ls' : List (List ρ)} {x : List ρ}

theorem length_of_mem_apply (hs : s.leftAbsent.length = n) (hls : ∀ l ∈ ls, l.length = n)
    (hx : x ∈ s.apply ls) : x.length = n + 1 := by
  rw [apply, mem_joinOf] at hx
  obtain ⟨l, hl, r, _, _, rfl⟩ | ⟨_, l, hl, _, rfl⟩ | ⟨_, r, _, _, rfl⟩ := hx
  · simp [hls l hl]
  · simp [hls l hl]
  · simp [hs]

theorem present_append (hside : ∀ i ∈ side, i < n) {l : List ρ} (hl : l.length = n) (r : ρ) :
    present absent side (l ++ [r]) = present absent side l := by
  have hall : (side.all fun i => ((l ++ [r])[i]?).all absent) =
      side.all fun i => (l[i]?).all absent := by
    rw [Bool.eq_iff_iff, all_eq_true, all_eq_true]
    refine forall₂_congr fun i hi => ?_
    rw [getElem?_append_left (hl ▸ hside i hi)]
  rw [present, present, hall]

theorem present_eq_false (h : ∀ i ∈ side, ∀ r, x[i]? = some r → absent r = true) :
    present absent side x = false := by
  rw [present, Bool.not_eq_false', all_eq_true]
  intro i hi
  cases hx : x[i]? with
  | none => rfl
  | some r => exact h i hi r hx

/-- What an absent left side gives has no part of a side of its own. -/
theorem present_leftAbsent (hlength : s.leftAbsent.length = n)
    (habsent : s.leftAbsent.all absent = true) (hside : ∀ i ∈ side, i < n) (r : ρ) :
    present absent side (s.leftAbsent ++ [r]) = false := by
  refine present_eq_false fun i hi r' hr' => ?_
  rw [getElem?_append_left (hlength ▸ hside i hi)] at hr'
  exact all_eq_true.mp habsent r' (mem_of_getElem? hr')

/-- A test for a part on a side is a test of the left elements. -/
theorem filter_apply (hlength : s.leftAbsent.length = n)
    (habsent : s.leftAbsent.all absent = true) (hside : ∀ i ∈ side, i < n)
    (hls : ∀ l ∈ ls, l.length = n) :
    (s.apply ls).filter (present absent side) =
      { s with keepRight := false }.apply (ls.filter (present absent side)) :=
  filter_joinOf (fun l hl r => present_append hside (hls l hl) r)
    (fun l hl => present_append hside (hls l hl) _)
    (fun r => present_leftAbsent hlength habsent hside r)

/-- The elements with a part on a side come from such elements. -/
theorem filter_chain_congr (hsteps : WellFormed absent n steps) (hside : ∀ i ∈ side, i < n)
    (hls : ∀ l ∈ ls, l.length = n) (hls' : ∀ l ∈ ls', l.length = n)
    (h : ls.filter (present absent side) = ls'.filter (present absent side)) :
    (chain steps ls).filter (present absent side) =
      (chain steps ls').filter (present absent side) := by
  induction hsteps generalizing ls ls' with
  | nil => exact h
  | cons hlength habsent _ _ ih =>
    refine ih (fun i hi => Nat.lt_succ_of_lt (hside i hi))
      (fun l hl => length_of_mem_apply hlength hls hl)
      (fun l hl => length_of_mem_apply hlength hls' hl) ?_
    rw [filter_apply hlength habsent hside hls, filter_apply hlength habsent hside hls', h]

variable (side) in
theorem filter_chain_of_present {p : List ρ → Bool} (hsteps : WellFormed absent n steps)
    (hside : ∀ i ∈ side, i < n) (hls : ∀ l ∈ ls, l.length = n) (hls' : ∀ l ∈ ls', l.length = n)
    (h : ls.filter (present absent side) = ls'.filter (present absent side))
    (hp : ∀ x ∈ chain steps ls ++ chain steps ls', p x = true → present absent side x = true) :
    (chain steps ls).filter p = (chain steps ls').filter p := by
  have hfilter : ∀ xs ⊆ chain steps ls ++ chain steps ls',
      xs.filter p = (xs.filter (present absent side)).filter p := by
    intro xs hxs
    rw [filter_filter]
    refine filter_congr fun x hx => ?_
    cases hpx : p x with
    | false => rfl
    | true => rw [hp x (hxs hx) hpx, Bool.true_and]
  rw [hfilter _ (subset_append_left _ _), hfilter _ (subset_append_right _ _),
    filter_chain_congr hsteps hside hls hls' h]

/-- A join that keeps the left side may as well drop it for a test that wants a part of
the right side. -/
theorem filter_apply_keepLeft (keepLeft : Bool) (habsent : absent s.rightAbsent = true)
    (hls : ∀ l ∈ ls, l.length = n) :
    (s.apply ls).filter (present absent [n]) =
      ({ s with keepLeft := keepLeft }.apply ls).filter (present absent [n]) := by
  have hfail : ∀ l ∈ ls, present absent [n] (l ++ [s.rightAbsent]) = false := by
    intro l hl
    refine present_eq_false fun i hi r hr => ?_
    cases mem_singleton.mp hi
    rw [← hls l hl, getElem?_concat_length] at hr
    exact Option.some.inj hr ▸ habsent
  rw [apply, filter_joinOf_keepLeft hfail]
  exact (filter_joinOf_keepLeft hfail).symm

/-- A join that keeps the right side may as well drop it for a test that wants a part of
the left side. -/
theorem filter_apply_keepRight (keepRight : Bool) (hlength : s.leftAbsent.length = n)
    (habsent : s.leftAbsent.all absent = true) :
    (s.apply ls).filter (present absent (List.range n)) =
      ({ s with keepRight := keepRight }.apply ls).filter (present absent (List.range n)) := by
  have hfail : ∀ r ∈ s.rows, present absent (range n) (s.leftAbsent ++ [r]) = false :=
    fun r _ => present_leftAbsent hlength habsent (fun i hi => mem_range.mp hi) r
  rw [apply, filter_joinOf_keepRight hfail]
  exact (filter_joinOf_keepRight hfail).symm

/-! ## The parts of the elements -/

/-- Each part of an element is one its place may have. -/
def Parts (ok : Nat → ρ → Prop) (x : List ρ) : Prop :=
  ∀ i r, x[i]? = some r → ok i r

theorem Parts.concat {ok : Nat → ρ → Prop} (hx : Parts ok x) {r : ρ}
    (hr : ok x.length r) : Parts ok (x ++ [r]) := by
  intro i r' hr'
  rcases lt_trichotomy i x.length with hlt | rfl | hgt
  · rw [getElem?_append_left hlt] at hr'
    exact hx i r' hr'
  · rw [getElem?_concat_length] at hr'
    exact Option.some.inj hr' ▸ hr
  · rw [getElem?_eq_none (by simpa using hgt)] at hr'
    cases hr'

/-- The elements of a chain have parts from the lists, or absent ones. -/
theorem parts_of_mem_chain {ok : Nat → ρ → Prop} (hsteps : WellFormed absent n steps)
    (hparts : ∀ k s, steps[k]? = some s →
      (∀ r ∈ s.rows, ok (n + k) r) ∧ ok (n + k) s.rightAbsent ∧ Parts ok s.leftAbsent)
    (hls : ∀ l ∈ ls, l.length = n ∧ Parts ok l) (hx : x ∈ chain steps ls) :
    x.length = n + steps.length ∧ Parts ok x := by
  induction hsteps generalizing ls with
  | nil => exact hls x hx
  | @cons n s steps hlength _ _ _ ih =>
    obtain ⟨hrows, hright, hleft⟩ := hparts 0 s rfl
    have happly : ∀ l ∈ s.apply ls, l.length = n + 1 ∧ Parts ok l := by
      intro l hl
      refine ⟨length_of_mem_apply hlength (fun l hl => (hls l hl).1) hl, ?_⟩
      rw [apply, mem_joinOf] at hl
      obtain ⟨l, hl, r, hr, _, rfl⟩ | ⟨_, l, hl, _, rfl⟩ | ⟨_, r, hr, _, rfl⟩ := hl
      · exact (hls l hl).2.concat ((hls l hl).1 ▸ hrows r hr)
      · exact (hls l hl).2.concat ((hls l hl).1 ▸ hright)
      · exact hleft.concat (hlength ▸ hrows r hr)
    obtain ⟨hlen, hx⟩ := ih (fun k s' hs' => by
      rw [Nat.add_assoc, Nat.add_comm 1]
      exact hparts (k + 1) s' hs') happly hx
    exact ⟨by rw [hlen, length_cons]; omega, hx⟩

section Filter

variable (q : Nat → ρ → Bool)

/-- The lists are filtered, each by the test of its place. -/
def filterSteps : Nat → List (JoinStep ρ) → List (JoinStep ρ)
  | _, [] => []
  | n, s :: steps => { s with rows := s.rows.filter (q n) } :: filterSteps (n + 1) steps

/-- Each part of an element passes the test of its place. -/
def partsPass (x : List ρ) : Bool := x.zipIdx.all fun r => q r.2 r.1

/-- A list is filtered only if no join puts an absent part in its place. -/
inductive Filterable : Nat → List (JoinStep ρ) → Prop
  | nil {n : Nat} : Filterable n []
  | cons {n : Nat} {s : JoinStep ρ} {steps : List (JoinStep ρ)} :
      (s.keepLeft = true → ∀ r, q n r = true) →
      (s.keepRight = true → ∀ i < n, ∀ r, q i r = true) → Filterable (n + 1) steps →
      Filterable n (s :: steps)

variable {q}

theorem partsPass_concat (x : List ρ) (r : ρ) :
    partsPass q (x ++ [r]) = (partsPass q x && q x.length r) := by
  simp [partsPass, zipIdx_append]

theorem partsPass_of_all {x : List ρ} (h : ∀ i < x.length, ∀ r, q i r = true) :
    partsPass q x = true := by
  rw [partsPass, List.all_eq_true]
  rintro ⟨r, i⟩ hr
  have hi := (List.getElem?_eq_some_iff.mp (List.mk_mem_zipIdx_iff_getElem?.mp hr)).1
  exact h i hi r

/-- A chain of filtered lists is the chain filtered by the tests of all places. -/
theorem chain_filter (hsteps : WellFormed absent n steps) (hfilter : Filterable q n steps)
    (hls : ∀ l ∈ ls, l.length = n) :
    chain (filterSteps q n steps) (ls.filter (partsPass q)) =
      (chain steps ls).filter (partsPass q) := by
  induction hsteps generalizing ls with
  | nil => rfl
  | @cons n s steps hlength _ _ _ ih =>
    obtain _ | ⟨hleft, hright, hfilter⟩ := hfilter
    have happly : ({ s with rows := s.rows.filter (q n) } : JoinStep ρ).apply
        (ls.filter (partsPass q)) = (s.apply ls).filter (partsPass q) := by
      refine joinOf_filter_filter (fun l hl r _ => ?_) (fun hkeep => ⟨fun r _ => hleft hkeep r,
        fun l hl => ?_⟩) (fun hkeep => ⟨fun l hl => ?_, fun r _ => ?_⟩)
      · rw [partsPass_concat, hls l hl]
      · rw [partsPass_concat, hls l hl, hleft hkeep, Bool.and_true]
      · exact partsPass_of_all fun i hi => hright hkeep i (hls l hl ▸ hi)
      · rw [partsPass_concat, hlength,
          partsPass_of_all fun i hi => hright hkeep i (hlength ▸ hi), Bool.true_and]
    rw [filterSteps, chain_cons, chain_cons, happly]
    exact ih hfilter fun l hl => length_of_mem_apply hlength hls hl

end Filter

end Absent

end JoinStep
