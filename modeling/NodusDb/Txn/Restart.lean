import NodusDb.Txn.Manager

/-!
# Timestamps across restarts

A manager with a timestamp store reserves commit timestamps ahead of issuing them; a restart loses
the clock and the reservation in memory. Calls come one after another, with restarts and saves that
fail. `granted` remembers the timestamps that may have been used for a durable version.

* `commit_exceeds_granted`: a commit timestamp exceeds every one granted before, across restarts.
* `observed_timestamp_lost`: a timestamp whose `observe_durable` failed is not covered.
-/

namespace NodusDb.Txn

/-- How a save of the timestamp store ends. A failed save leaves the value that
was there or the new one. -/
inductive Save
  | done
  | failedOld
  | failedNew
  deriving DecidableEq, Repr

/-- What the store has after a save of `new`. -/
def Save.leaves (save : Save) (old : Option Nat) (new : Nat) : Option Nat :=
  match save with
  | done | failedNew => some new
  | failedOld => old

/-- Merge a timestamp observed elsewhere; the increments are machine additions. -/
def HybridLogicalClock.update (wall remote : Nat) (c : HybridLogicalClock) : HybridLogicalClock :=
  ⟨max (max wall ((c.last + 1) % 2 ^ 64)) ((remote + 1) % 2 ^ 64)⟩

/-! ## The clock alone -/

namespace HybridLogicalClock

inductive Event
  | tick (wall : UInt64)
  | update (remote wall : UInt64)
  deriving DecidableEq, Repr

def Event.remote : Event → List Nat
  | tick _ => []
  | update remote _ => [remote.toNat]

/-- The clock after a call. Its last timestamp is the one the call returns. -/
def issue (c : HybridLogicalClock) : Event → HybridLogicalClock
  | .tick wall => (c.tick wall.toNat).2
  | .update remote wall => c.update wall.toNat remote.toNat

/-- The timestamps passed in and returned, in order. -/
def seen (c : HybridLogicalClock) : List Event → List Nat
  | [] => []
  | e :: es => e.remote ++ (c.issue e).last :: (c.issue e).seen es

/-- Neither the clock nor a timestamp passed in is at the top of the range. -/
def BelowTop (c : HybridLogicalClock) (e : Event) : Prop :=
  c.last < u64Max ∧ ∀ r ∈ e.remote, r < u64Max

instance (c : HybridLogicalClock) (e : Event) : Decidable (c.BelowTop e) :=
  inferInstanceAs (Decidable (_ ∧ _))

variable {c : HybridLogicalClock}

theorem lt_update (wall : Nat) (h : c.last < u64Max) (hremote : remote < u64Max) :
    c.last < (c.update wall remote).last ∧ remote < (c.update wall remote).last := by
  have hlast : (c.last + 1) % 2 ^ 64 = c.last + 1 := Nat.mod_eq_of_lt (by rw [u64Max] at h; omega)
  have hrem : (remote + 1) % 2 ^ 64 = remote + 1 :=
    Nat.mod_eq_of_lt (by rw [u64Max] at hremote; omega)
  simp only [update, hlast, hrem]
  omega

theorem lt_issue (h : c.BelowTop e) :
    c.last < (c.issue e).last ∧ ∀ r ∈ e.remote, r < (c.issue e).last := by
  cases e with
  | tick wall => exact ⟨lt_tick wall.toNat h.1, nofun⟩
  | update remote wall =>
    obtain ⟨hlast, hremote⟩ := lt_update wall.toNat h.1 (h.2 _ List.mem_cons_self)
    exact ⟨hlast, fun r hr => List.mem_singleton.mp hr ▸ hremote⟩

theorem seen_le (h : Meets issue BelowTop c es) :
    c.last ≤ (es.foldl issue c).last ∧ ∀ ts ∈ c.seen es, ts ≤ (es.foldl issue c).last := by
  induction es generalizing c with
  | nil => exact ⟨le_rfl, nofun⟩
  | cons e es ih =>
    obtain ⟨hlast, hremote⟩ := lt_issue h.1
    obtain ⟨hrest, hseen⟩ := ih h.2
    refine ⟨hlast.le.trans hrest, fun ts hts => ?_⟩
    rcases List.mem_append.mp hts with hr | hr
    · exact (hremote ts hr).le.trans hrest
    rcases List.mem_cons.mp hr with rfl | hr
    · exact hrest
    · exact hseen ts hr

/-- Away from the top of the range, a call returns more than every timestamp that was
returned or passed in before, and than the one it is passed. -/
theorem clock_strictly_monotone (before after : List Event) (e : Event)
    (h : Meets issue BelowTop c (before ++ e :: after)) :
    ∀ ts ∈ c.seen before ++ e.remote, ts < ((before.foldl issue c).issue e).last := by
  obtain ⟨hbefore, hmax, -⟩ := meets_append.mp h
  obtain ⟨hlast, hremote⟩ := lt_issue hmax
  intro ts hts
  rcases List.mem_append.mp hts with hts | hts
  · exact ((seen_le hbefore).2 ts hts).trans_lt hlast
  · exact hremote ts hts

/-- A wall clock that goes back, and a peer ahead of it. -/
theorem clock_strictly_monotone_back :
    10 < ((issue (issue ⟨0⟩ (.tick 5)) (.update 9 3)).issue (.tick 2)).last :=
  clock_strictly_monotone [.tick 5, .update 9 3] [] (.tick 2) (c := ⟨0⟩) (by decide) 10 (by decide)

/-- After the largest timestamp of a peer the clock goes on from its own. -/
theorem largest_remote_not_passed :
    2 ^ 64 - 1 ∈ seen ⟨0⟩ [.update (2 ^ 64 - 1) 7] ∧
      (issue (issue ⟨0⟩ (.update (2 ^ 64 - 1) 7)) (.tick 6)).last = 8 := by
  decide +kernel

end HybridLogicalClock

structure Manager where
  records : Records
  clock : ClockState
  /-- The content of the timestamp store. -/
  stored : Option Nat
  /-- Every timestamp returned by `commit_txn` or accepted by `observe_durable`. -/
  granted : List Nat
  deriving DecidableEq

namespace Manager

/-- `with_timestamp_store`, on what the last process left in the store. -/
def withTimestampStore (stored : Option Nat) (granted : List Nat) (wall : UInt64) : Manager :=
  let persisted := stored.getD 0
  ⟨.empty, ⟨⟨max persisted wall.toNat⟩, persisted⟩, stored, granted⟩

/-- Cover a timestamp by a durable reservation. -/
def reserve (m : Manager) (save : Save) (ts : Nat) : Manager × Bool :=
  let stored :=
    if m.clock.reserved < ts then save.leaves m.stored (min (ts + reservationWindow) u64Max)
    else m.stored
  match reserveThrough (save = .done) m.clock ts with
  | some clock => ({ m with clock := clock, stored := stored }, true)
  | none => ({ m with stored := stored }, false)

def setLast (m : Manager) (hlc : HybridLogicalClock) : Manager :=
  { m with clock := { m.clock with hlc := hlc } }

def beginTxn (m : Manager) (txnId : TxnId) (wall : UInt64) : Manager :=
  let (readTs, hlc) := m.clock.hlc.tick wall.toNat
  let m := m.setLast hlc
  { m with records := m.records.insert txnId ⟨txnId, .pending, readTs, none, []⟩ }

def trackWrite (m : Manager) (txnId : TxnId) (key : Bytes) : Manager :=
  match m.records.get? txnId with
  | some r => { m with records := m.records.insert txnId { r with writeSet := r.writeSet ++ [key] } }
  | none => m

/-- The commit timestamp, if the transaction commits. -/
def commitTxn (m : Manager) (txnId : TxnId) (wall : UInt64) (save : Save) : Manager × Option Nat :=
  match m.records.get? txnId with
  | none => (m, none)
  | some record =>
    if record.state ≠ .pending ∧ record.state ≠ .writing then (m, none)
    else if conflicts m.records txnId record.readTs record.writeSet then
      ({ m with records := m.records.erase txnId }, none)
    else
      let (ts, hlc) := m.clock.hlc.tick wall.toNat
      match (m.setLast hlc).reserve save ts with
      | (m, false) => (m, none)
      | (m, true) =>
        let record := { record with state := .committed, commitTs := some ts }
        ({ m with
            records := reapFinished (m.records.insert txnId record)
            granted := m.granted ++ [ts] }, some ts)

def abortTxn (m : Manager) (txnId : TxnId) : Manager :=
  match m.records.get? txnId with
  | some r => if r.state = .committed then m else { m with records := m.records.erase txnId }
  | none => m

/-- Whether the timestamp is durably reserved. -/
def observeDurable (m : Manager) (ts wall : UInt64) (save : Save) : Manager × Bool :=
  match (m.setLast (m.clock.hlc.update wall.toNat ts.toNat)).reserve save ts.toNat with
  | (m, true) => ({ m with granted := m.granted ++ [ts.toNat] }, true)
  | (m, false) => (m, false)

end Manager

open Manager

inductive Call
  | beginTxn (txnId : TxnId) (wall : UInt64)
  | trackWrite (txnId : TxnId) (key : Bytes)
  | commitTxn (txnId : TxnId) (wall : UInt64) (save : Save)
  | abortTxn (txnId : TxnId)
  | observeDurable (ts wall : UInt64) (save : Save)
  | restart (wall : UInt64)
  deriving DecidableEq, Repr

namespace Manager

def apply (m : Manager) : Call → Manager
  | .beginTxn txnId wall => m.beginTxn txnId wall
  | .trackWrite txnId key => m.trackWrite txnId key
  | .commitTxn txnId wall save => (m.commitTxn txnId wall save).1
  | .abortTxn txnId => m.abortTxn txnId
  | .observeDurable ts wall save => (m.observeDurable ts wall save).1
  | .restart wall => withTimestampStore m.stored m.granted wall

/-- No timestamp is at the top of its range when the next one is drawn. -/
def BelowMax (m : Manager) : Call → Prop
  | .beginTxn .. | .commitTxn .. => m.clock.hlc.last < u64Max
  | .observeDurable ts .. => m.clock.hlc.last < u64Max ∧ ts.toNat < u64Max
  | _ => True

instance (m : Manager) (call : Call) : Decidable (m.BelowMax call) := by
  cases call <;> unfold BelowMax <;> infer_instance

/-! ## The reservation -/

/-- Every timestamp granted is reserved in memory, and the reservation is stored. -/
structure Reserved (m : Manager) : Prop where
  granted : ∀ ts ∈ m.granted, ts ≤ m.clock.reserved
  stored : m.clock.reserved ≤ m.stored.getD 0
  issued : ∀ ts ∈ m.granted, ts ≤ m.clock.hlc.last

variable {m : Manager} {ts : Nat} (wall : UInt64) (save : Save)

theorem Reserved.setLast (h : m.Reserved) (hle : m.clock.hlc.last ≤ hlc.last) :
    (m.setLast hlc).Reserved :=
  ⟨h.granted, h.stored, fun ts hts => (h.issued ts hts).trans hle⟩

theorem Reserved.withRecords (h : m.Reserved) (records : Records) :
    ({ m with records := records } : Manager).Reserved :=
  ⟨h.granted, h.stored, h.issued⟩

theorem Reserved.raise (h : m.Reserved) (hle : m.clock.reserved ≤ reserved)
    (hnew : reserved ≤ new) :
    ({ m with clock := { m.clock with reserved := reserved }, stored := some new } :
      Manager).Reserved :=
  ⟨fun ts hts => (h.granted ts hts).trans hle, hnew, h.issued⟩

theorem reserve_of_lt (hlt : m.clock.reserved < ts) (hmax : ts ≤ u64Max) :
    ∃ new, ts ≤ new ∧ m.reserve save ts =
      match save with
      | .done => ({ m with clock := { m.clock with reserved := new }, stored := some new }, true)
      | .failedOld => (m, false)
      | .failedNew => ({ m with stored := some new }, false) := by
  refine ⟨min (ts + reservationWindow) u64Max, Nat.le_min.mpr ⟨Nat.le_add_right _ _, hmax⟩, ?_⟩
  cases save <;>
    simp only [reserve, reserveThrough, if_pos hlt, Save.leaves, reduceCtorEq, decide_true,
      decide_false, if_true, Bool.false_eq_true, if_false]

theorem reserve_of_le (hle : ts ≤ m.clock.reserved) : m.reserve save ts = (m, true) := by
  simp only [reserve, reserveThrough, if_neg (not_lt.mpr hle)]

theorem Reserved.reserve (h : m.Reserved) (hmax : ts ≤ u64Max) :
    (m.reserve save ts).1.Reserved ∧
      ((m.reserve save ts).2 = true → ts ≤ (m.reserve save ts).1.clock.reserved) ∧
      (m.reserve save ts).1.clock.hlc = m.clock.hlc ∧ (m.reserve save ts).1.granted = m.granted := by
  rcases Nat.lt_or_ge m.clock.reserved ts with hlt | hle
  · -- the new reservation lies above the old one, whichever of the two the store keeps
    obtain ⟨new, hnew, heq⟩ := reserve_of_lt save hlt hmax
    have hold : m.clock.reserved ≤ new := hlt.le.trans hnew
    rw [heq]
    cases save with
    | done => exact ⟨h.raise hold (Nat.le_refl _), fun _ => hnew, rfl, rfl⟩
    | failedOld => exact ⟨h, nofun, rfl, rfl⟩
    | failedNew => exact ⟨h.raise (Nat.le_refl _) hold, nofun, rfl, rfl⟩
  · rw [reserve_of_le save hle]
    exact ⟨h, fun _ => hle, rfl, rfl⟩

theorem Reserved.grant (h : m.Reserved) (hres : ts ≤ m.clock.reserved)
    (hlast : ts ≤ m.clock.hlc.last) :
    ({ m with granted := m.granted ++ [ts] } : Manager).Reserved := by
  refine ⟨?_, h.stored, ?_⟩ <;> intro x hx <;> rcases List.mem_append.mp hx with hx | hx
  · exact h.granted x hx
  · rw [List.mem_singleton.mp hx]
    exact hres
  · exact h.issued x hx
  · rw [List.mem_singleton.mp hx]
    exact hlast

theorem reserved_withTimestampStore {stored : Option Nat} {granted : List Nat}
    (h : ∀ ts ∈ granted, ts ≤ stored.getD 0) : (withTimestampStore stored granted wall).Reserved :=
  ⟨h, le_rfl, fun ts hts => (h ts hts).trans (le_max_left _ _)⟩

theorem Reserved.beginTxn (h : m.Reserved) {txnId : TxnId} (hmax : m.clock.hlc.last < u64Max) :
    (m.beginTxn txnId wall).Reserved :=
  (h.setLast (lt_tick wall.toNat hmax).le).withRecords _

theorem tick_le_u64Max : (m.clock.hlc.tick wall.toNat).1 ≤ u64Max := by
  have hwall := wall.toNat_lt
  have hmod := Nat.mod_lt (m.clock.hlc.last + 1) (show 0 < 2 ^ 64 by decide)
  show max wall.toNat ((m.clock.hlc.last + 1) % 2 ^ 64) ≤ 2 ^ 64 - 1
  omega

theorem commitTxn_spec (h : m.Reserved) {txnId : TxnId} (hmax : m.clock.hlc.last < u64Max) :
    (m.commitTxn txnId wall save).1.Reserved ∧
      ∀ ts, (m.commitTxn txnId wall save).2 = some ts → m.clock.hlc.last < ts := by
  have htick := lt_tick wall.toNat hmax
  have hlast : m.clock.hlc.last ≤ (m.clock.hlc.tick wall.toNat).2.last := htick.le
  obtain ⟨hkept, hcover, hclock, -⟩ :=
    (h.setLast hlast).reserve save (tick_le_u64Max wall : (m.clock.hlc.tick wall.toNat).1 ≤ _)
  rw [commitTxn]
  split
  · exact ⟨h, nofun⟩
  split
  · exact ⟨h, nofun⟩
  split
  · exact ⟨h.withRecords _, nofun⟩
  dsimp only
  split
  next heq =>
    rw [heq] at hkept
    exact ⟨hkept, nofun⟩
  next heq =>
    rw [heq] at hkept hcover hclock
    refine ⟨((hkept.grant (hcover rfl) ?_).withRecords _), ?_⟩
    · rw [hclock]
      exact le_rfl
    · rintro ts ⟨⟩
      exact htick

theorem Reserved.observeDurable (h : m.Reserved) {ts : UInt64} (hmax : m.clock.hlc.last < u64Max)
    (hts : ts.toNat < u64Max) : (m.observeDurable ts wall save).1.Reserved := by
  obtain ⟨hlast, hremote⟩ := HybridLogicalClock.lt_update wall.toNat hmax hts
  obtain ⟨hkept, hcover, hclock, -⟩ := (h.setLast hlast.le).reserve save hts.le
  rw [Manager.observeDurable]
  split
  next heq =>
    rw [heq] at hkept hcover hclock
    refine hkept.grant (hcover rfl) ?_
    rw [hclock]
    exact hremote.le
  next heq =>
    rw [heq] at hkept
    exact hkept

theorem Reserved.apply (h : m.Reserved) {call : Call} (hmax : m.BelowMax call) :
    (m.apply call).Reserved := by
  cases call with
  | beginTxn txnId wall => exact h.beginTxn wall hmax
  | trackWrite txnId key =>
    show (m.trackWrite txnId key).Reserved
    rw [trackWrite]
    split
    · exact h.withRecords _
    · exact h
  | commitTxn txnId wall save => exact (commitTxn_spec wall save h hmax).1
  | abortTxn txnId =>
    show (m.abortTxn txnId).Reserved
    rw [abortTxn]
    split
    · split
      · exact h
      · exact h.withRecords _
    · exact h
  | observeDurable ts wall save => exact h.observeDurable wall save hmax.1 hmax.2
  | restart wall =>
    exact reserved_withTimestampStore wall fun ts hts => (h.granted ts hts).trans h.stored

theorem reserved_foldl {calls : List Call} (h : m.Reserved)
    (hmax : Meets apply BelowMax m calls) : (calls.foldl apply m).Reserved :=
  foldl_invariant (fun _ _ hr hok => hr.apply hok) h hmax

end Manager

/-! ## Commit timestamps -/

/-- A timestamp that `commit_txn` returns exceeds every timestamp it returned
before and every one `observe_durable` accepted before, whatever the wall clock,
the saves and the restarts did in between. -/
theorem commit_exceeds_granted (stored : Option Nat) (wall₀ : UInt64) (calls : List Call)
    (txnId : TxnId) (wall : UInt64) (save : Save) (ts : Nat)
    (hmax : Meets Manager.apply Manager.BelowMax (.withTimestampStore stored [] wall₀)
      (calls ++ [.commitTxn txnId wall save]))
    (h : ((calls.foldl Manager.apply (.withTimestampStore stored [] wall₀)).commitTxn
      txnId wall save).2 = some ts) :
    ∀ x ∈ (calls.foldl Manager.apply (.withTimestampStore stored [] wall₀)).granted, x < ts := by
  obtain ⟨hcalls, hlast, -⟩ := meets_append.mp hmax
  have hstart : (withTimestampStore stored [] wall₀).Reserved :=
    reserved_withTimestampStore wall₀ (by simp)
  have hres := reserved_foldl hstart hcalls
  intro x hx
  exact (hres.issued x hx).trans_lt ((commitTxn_spec wall save hres hlast).2 ts h)

/-- A commit, an accepted observation ahead of the clock, and a restart of the
process on a clock that went back. -/
def restartCalls : List Call :=
  [.beginTxn 1 50, .commitTxn 1 51 .done, .observeDurable 2000000 52 .done, .restart 7,
    .beginTxn 2 8]

theorem commit_exceeds_granted_restartCalls :
    ((restartCalls.foldl Manager.apply (.withTimestampStore none [] 40)).commitTxn 2 9 .done).2 =
        some 3000002 ∧
      ∀ x ∈ (restartCalls.foldl Manager.apply (.withTimestampStore none [] 40)).granted,
        x < 3000002 := by
  have hcommit : ((restartCalls.foldl apply (.withTimestampStore none [] 40)).commitTxn
      2 9 .done).2 = some 3000002 := by
    decide +kernel
  exact ⟨hcommit, commit_exceeds_granted none 40 restartCalls 2 9 .done 3000002 (by decide +kernel)
    hcommit⟩

/-- The save behind an observation fails and the process restarts on a clock that
went back: the next commit is below the timestamp observed. -/
theorem observed_timestamp_lost :
    let calls := [Call.observeDurable 100 50 .failedOld, .restart 7, .beginTxn 1 8]
    let m := calls.foldl apply (.withTimestampStore none [] 40)
    Meets apply Manager.BelowMax (.withTimestampStore none [] 40)
        (calls ++ [.commitTxn 1 9 .done]) ∧
      (m.commitTxn 1 9 .done).2 = some 9 := by
  decide +kernel

end NodusDb.Txn
