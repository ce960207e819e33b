import NodusDb.Lib.Results

/-!
# Networks

An address of either family is a number with a mask length. `inet_merge` shortens a mask, from
the longest one, until both addresses agree on it. It does not look at the masks of its operands.

* `Addr.inetMerge_smallest`: when it returns the smallest network that contains both operands.
-/

namespace NodusDb.Sql

open Result BitVec

def addrWidth (v6 : Bool) : Nat := if v6 then 128 else 32

theorem addrWidth_le (v6 : Bool) : addrWidth v6 ≤ 128 := by cases v6 <;> decide

/-- An `inet` or `cidr` value: the address bits and the mask length. -/
structure Addr where
  v6 : Bool
  bits : BitVec 128
  masklen : Nat
  masklen_le : masklen ≤ addrWidth v6

namespace Addr

def widthMask (v6 : Bool) : BitVec 128 := (allOnes (addrWidth v6)).setWidth 128

def mask (v6 : Bool) (masklen : Nat) : BitVec 128 :=
  if masklen = 0 then 0#128
  else if masklen = 128 then allOnes 128
  else widthMask v6 &&& ~~~(widthMask v6 >>> masklen)

/-- The leading `n` bits of the address. -/
def prefixBits (a : Addr) (n : Nat) : BitVec 128 :=
  if addrWidth a.v6 ≤ n then a.bits &&& widthMask a.v6
  else if n = 0 then 0#128
  else a.bits &&& widthMask a.v6 &&& ~~~(widthMask a.v6 >>> n)

/-- Whether `a` is a subnet of `b`. -/
def networkSub (a b : Addr) : Prop :=
  b.masklen ≤ a.masklen ∧ a.prefixBits b.masklen = b.prefixBits b.masklen

/-- The longest mask up to `n` on which both addresses agree. -/
def mergeLen (a b : Addr) : Nat → Nat
  | 0 => 0
  | n + 1 => if a.bits &&& mask a.v6 (n + 1) = b.bits &&& mask a.v6 (n + 1) then n + 1
    else mergeLen a b n

theorem mergeLen_le (a b : Addr) (n : Nat) : mergeLen a b n ≤ n := by
  induction n with
  | zero => exact le_rfl
  | succ n ih =>
    rw [mergeLen]
    split
    · exact le_rfl
    · exact ih.trans n.le_succ

/-- The leading bits of the first address, with the mask found. -/
def merged (a b : Addr) : Addr :=
  let masklen := mergeLen a b (addrWidth a.v6)
  ⟨a.v6, a.bits &&& mask a.v6 masklen &&& widthMask a.v6, masklen, mergeLen_le a b _⟩

def inetMerge (a b : Addr) : Result Addr := do
  ensure (a.v6 = b.v6) "cannot compare addresses of different families\x1fcode=22023"
  pure (merged a b)

/-! ## The network returned -/

theorem getLsbD_mask {v6 : Bool} {n : Nat} (h : n ≤ addrWidth v6) (i : Nat) :
    (mask v6 n).getLsbD i = decide (i < addrWidth v6 ∧ addrWidth v6 ≤ n + i) := by
  have hw := addrWidth_le v6
  rw [mask]
  split
  · simp; omega
  split
  · rw [getLsbD_allOnes, decide_eq_decide]
    omega
  simp only [widthMask, getLsbD_and, getLsbD_not, getLsbD_ushiftRight, getLsbD_setWidth,
    getLsbD_allOnes, ← decide_not, ← Bool.decide_and, decide_eq_decide]
  omega

theorem mask_and_mask {v6 : Bool} {k n : Nat} (hk : k ≤ n) (hn : n ≤ addrWidth v6) :
    mask v6 n &&& mask v6 k = mask v6 k := by
  refine eq_of_getLsbD_eq fun i _ => ?_
  rw [getLsbD_and, getLsbD_mask hn, getLsbD_mask (hk.trans hn), ← Bool.decide_and,
    decide_eq_decide]
  omega

theorem mask_width (v6 : Bool) : mask v6 (addrWidth v6) = widthMask v6 := by cases v6 <;> decide

theorem prefixBits_eq (a : Addr) {n : Nat} (h : n ≤ addrWidth a.v6) :
    a.prefixBits n = a.bits &&& mask a.v6 n := by
  have hw := addrWidth_le a.v6
  rw [prefixBits]
  split
  next hge => rw [le_antisymm h hge, mask_width]
  split
  next h0 => rw [h0, mask, if_pos rfl, and_zero]
  next hlt h0 => rw [mask, if_neg h0, if_neg (by omega), BitVec.and_assoc]

/-- The addresses have the same leading `n` bits. -/
def Agree (a b : Addr) (n : Nat) : Prop := a.bits &&& mask a.v6 n = b.bits &&& mask a.v6 n

theorem Agree.mono {a b : Addr} (h : Agree a b n) (hk : k ≤ n) (hn : n ≤ addrWidth a.v6) :
    Agree a b k := by
  rw [Agree, ← mask_and_mask hk hn, ← BitVec.and_assoc, h, BitVec.and_assoc]

theorem mergeLen_spec (a b : Addr) (n : Nat) : Agree a b (mergeLen a b n) ∧
    ∀ k ≤ n, Agree a b k → k ≤ mergeLen a b n := by
  induction n with
  | zero => exact ⟨by simp [Agree, mergeLen, mask], fun k hk _ => hk⟩
  | succ n ih =>
    rw [mergeLen]
    split
    next h => exact ⟨h, fun k hk _ => hk⟩
    next h =>
    refine ⟨ih.1, fun k hk hk' => ?_⟩
    rcases hk.lt_or_eq with hlt | rfl
    · exact ih.2 k (Nat.le_of_lt_succ hlt) hk'
    · exact absurd hk' h

theorem networkSub_iff {a c : Addr} (h : c.v6 = a.v6) :
    a.networkSub c ↔ c.masklen ≤ a.masklen ∧ Agree a c c.masklen := by
  rw [networkSub, prefixBits_eq a (h ▸ c.masklen_le), prefixBits_eq c c.masklen_le, h, Agree]

/-- `r` contains both networks, and no network with a longer mask does. -/
def Smallest (a b r : Addr) : Prop :=
  (a.networkSub r ∧ b.networkSub r) ∧
    ∀ c : Addr, c.v6 = a.v6 → r.masklen < c.masklen → ¬ (a.networkSub c ∧ b.networkSub c)

theorem smallest_merged {a b : Addr} (h : a.v6 = b.v6) : Smallest a b (merged a b) ↔
    mergeLen a b (addrWidth a.v6) ≤ min a.masklen b.masklen := by
  obtain ⟨hagree, hmax⟩ := mergeLen_spec a b (addrWidth a.v6)
  have hself : Agree a (merged a b) (mergeLen a b (addrWidth a.v6)) := by
    rw [Agree, merged, BitVec.and_assoc _ (widthMask _), ← mask_width,
      mask_and_mask (mergeLen_le a b _) le_rfl, BitVec.and_assoc, BitVec.and_self]
  have hother : Agree b (merged a b) (mergeLen a b (addrWidth a.v6)) := by
    rw [Agree, ← h]
    exact hagree.symm.trans hself
  have ha := (networkSub_iff (a := a) (c := merged a b) rfl).trans (and_iff_left hself)
  have hb := (networkSub_iff (a := b) (c := merged a b) h).trans (and_iff_left hother)
  rw [Smallest, ha, hb, le_min_iff]
  refine and_iff_left fun c hc hlt ⟨hac, hbc⟩ => hlt.not_ge ?_
  have hbc := ((networkSub_iff (hc.trans h)).mp hbc).2
  rw [Agree, ← h] at hbc
  exact hmax _ (hc ▸ c.masklen_le) (((networkSub_iff hc).mp hac).2.trans hbc.symm)

theorem inetMerge_smallest (a b : Addr) (h : a.v6 = b.v6) :
    (∃ r, inetMerge a b = .ok r ∧ Smallest a b r) ↔
      min a.masklen b.masklen = addrWidth a.v6 ∨
        a.prefixBits (min a.masklen b.masklen + 1) ≠ b.prefixBits (min a.masklen b.masklen + 1) := by
  obtain ⟨hagree, hmax⟩ := mergeLen_spec a b (addrWidth a.v6)
  rw [inetMerge, ensure_bind h]
  simp only [pure_eq_ok, exists_eq_left', smallest_merged h]
  generalize hk : min a.masklen b.masklen = k
  have hkw : k ≤ addrWidth a.v6 := hk ▸ (min_le_left _ _).trans a.masklen_le
  have hle := mergeLen_le a b (addrWidth a.v6)
  rcases hkw.lt_or_eq with hlt | rfl
  · rw [prefixBits_eq a hlt, prefixBits_eq b (h ▸ hlt), ← h, Ne, ← not_lt, or_iff_right hlt.ne,
      not_iff_not]
    exact ⟨fun hm => hagree.mono hm hle, hmax _ hlt⟩
  · exact iff_of_true hle (.inl rfl)

def localNet : Addr := ⟨false, 0xC0A80100#128, 24, by decide⟩

def nextNet : Addr := ⟨false, 0xC0A80000#128, 24, by decide⟩

theorem inetMerge_smallest_local :
    ∃ r, inetMerge localNet nextNet = .ok r ∧ Smallest localNet nextNet r :=
  (inetMerge_smallest localNet nextNet rfl).mpr (.inr (by decide +kernel))

/-- A network merged with itself gives its address with the longest mask. -/
theorem merge_same_too_small :
    ¬ ∃ r, inetMerge localNet localNet = .ok r ∧ Smallest localNet localNet r := by
  rintro ⟨r, hr, ⟨⟨hle, -⟩, -⟩, -⟩
  cases hr
  revert hle
  decide +kernel

end Addr

end NodusDb.Sql
