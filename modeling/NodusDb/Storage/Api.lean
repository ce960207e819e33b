import NodusDb.Lib.OrdMap

/-!
# The storage interface

The types that every engine and every client of an engine shares. A timestamp is a `Nat`
(microseconds, a `u64` in the source); `u64Max` is the largest machine value, and code that can
reach it says so.
-/

/-- Bytes compare as unsigned numbers. -/
instance byteOrder : LinearOrder UInt8 where
  le_refl := UInt8.le_refl
  le_trans _ _ _ := UInt8.le_trans
  le_antisymm _ _ := UInt8.le_antisymm
  le_total := UInt8.le_total
  lt_iff_le_not_ge a b := by
    rw [UInt8.lt_iff_toNat_lt, UInt8.le_iff_toNat_le, UInt8.le_iff_toNat_le]
    omega
  toDecidableLE := inferInstance
  toDecidableLT := inferInstance
  toDecidableEq := inferInstance

-- Named, so that definitions share these proofs.
instance byteBEq : LawfulBEq UInt8 := inferInstance

instance bytesBEq : LawfulBEq (List UInt8) := inferInstance

namespace NodusDb

/-- A key or a value. Keys are ordered lexicographically. -/
abbrev Bytes := List UInt8

/-- `u64::MAX`. -/
def u64Max : Nat := 2 ^ 64 - 1

/-- A 128-bit identifier, ordered as its big-endian bytes are. -/
def Uuid : Type := Fin (2 ^ 128)

namespace Uuid

instance neZero : NeZero (2 ^ 128) := ⟨by decide⟩
instance : LinearOrder Uuid := inferInstanceAs (LinearOrder (Fin (2 ^ 128)))
instance lawfulBEq : LawfulBEq Uuid := inferInstance
instance : Repr Uuid := inferInstanceAs (Repr (Fin (2 ^ 128)))
instance (n : Nat) : OfNat Uuid n := inferInstanceAs (OfNat (Fin (2 ^ 128)) n)

end Uuid

abbrev TxnId := Uuid

/-- A typed failure of a mutation. Input/output failures are not modelled. -/
inductive KvError
  | intentNotFound (txn : TxnId)
  | writeConflict (txn : TxnId)
  deriving DecidableEq, Repr

inductive IntentOperation (V : Type)
  | put (key : Bytes) (value : V)
  | delete (key : Bytes)
  deriving DecidableEq, Repr

namespace IntentOperation

variable {V : Type}

def key : IntentOperation V → Bytes
  | put k _ => k
  | delete k => k

/-- The value an operation leaves pending; a deletion leaves a tombstone. -/
def value : IntentOperation V → Option V
  | put _ v => some v
  | delete _ => none

end IntentOperation

/-- What a savepoint puts in place of a transaction's intent. -/
inductive IntentReplacement (V : Type)
  | put (value : V)
  | delete
  | clear
  deriving DecidableEq, Repr

structure KvPair (V : Type) where
  key : Bytes
  value : V
  version : Nat
  deriving DecidableEq, Repr

/-- One committed version; `none` is a tombstone. -/
structure KvVersion (V : Type) where
  key : Bytes
  value : Option V
  version : Nat
  deriving DecidableEq, Repr

namespace KvVersion

variable {V : Type}

/-- The order version scans sort by: key, then version. -/
def le (a b : KvVersion V) : Prop := a.key < b.key ∨ (a.key = b.key ∧ a.version ≤ b.version)

instance : DecidableRel (le (V := V)) := fun _ _ => inferInstanceAs (Decidable (_ ∨ _))

end KvVersion

structure KeyRange where
  start : Bytes
  stop : Bytes
  deriving DecidableEq, Repr

namespace KeyRange

def Contains (range : KeyRange) (key : Bytes) : Prop := range.start ≤ key ∧ key < range.stop

instance (range : KeyRange) (key : Bytes) : Decidable (range.Contains key) :=
  inferInstanceAs (Decidable (_ ∧ _))

end KeyRange

inductive ReadFault
  /-- An ordered map panics on a range whose start is above its end. -/
  | invertedRange
  /-- A published table file is missing. -/
  | missingSstable (id : Nat)
  deriving DecidableEq, Repr

/-- The entries of a map with a key in `[start, stop)`. -/
def rangeEntries {W : Type} (m : OrdMap Bytes W) (start stop : Bytes) :
    Except ReadFault (List (Bytes × W)) :=
  if stop < start then .error .invertedRange else .ok (m.range start stop)

end NodusDb
