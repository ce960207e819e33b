import NodusDb.Lib.Digits

/-!
# Compact JSON

The bytes a compact JSON writer produces. A value is the bytes it is written as, so a document is
put together from `jsonNumber`, `jsonString`, `jsonArray` and `jsonObject`. Each has a lemma about
its length, and a number can be read back (`parseDigits_jsonNumber`).
-/

section

open List

def jsonNumber (n : Nat) : List UInt8 :=
  if n = 0 then [48] else (Nat.digits 10 n).reverse.map fun d => UInt8.ofNat (48 + d)

/-- A character of a string: quotes, backslashes and control characters are escaped. -/
def jsonChar (c : UInt8) : List UInt8 :=
  if c = 34 ∨ c = 92 then [92, c]
  else if c = 8 then [92, 98]
  else if c = 9 then [92, 116]
  else if c = 10 then [92, 110]
  else if c = 12 then [92, 102]
  else if c = 13 then [92, 114]
  else if c < 16 then [92, 117, 48, 48, 48, if c < 10 then 48 + c else 87 + c]
  else if c < 32 then [92, 117, 48, 48, 49, if c < 26 then 32 + c else 71 + c]
  else [c]

def jsonString (s : List UInt8) : List UInt8 := 34 :: (s.flatMap jsonChar ++ [34])

def jsonBool (b : Bool) : List UInt8 :=
  if b then [116, 114, 117, 101] else [102, 97, 108, 115, 101]

def jsonItems : List (List UInt8) → List UInt8
  | [] => []
  | [v] => v
  | v :: w :: vs => v ++ 44 :: jsonItems (w :: vs)

def jsonArray (values : List (List UInt8)) : List UInt8 := 91 :: (jsonItems values ++ [93])

def jsonField (name value : List UInt8) : List UInt8 := jsonString name ++ 58 :: value

def jsonObject (fields : List (List UInt8 × List UInt8)) : List UInt8 :=
  123 :: (jsonItems (fields.map fun f => jsonField f.1 f.2) ++ [125])

/-! ## Lengths -/

theorem length_jsonNumber_le {n k : Nat} (hk : 0 < k) (h : n < 10 ^ k) :
    (jsonNumber n).length ≤ k := by
  unfold jsonNumber
  split
  · exact hk
  rw [length_map, length_reverse, Nat.digits_length_le_iff (by decide)]
  exact h

theorem length_jsonChar_le (c : UInt8) : (jsonChar c).length ≤ 6 := by
  unfold jsonChar
  repeat' split
  all_goals simp

theorem length_jsonString_le (s : List UInt8) : (jsonString s).length ≤ 6 * s.length + 2 := by
  have hchars : (s.flatMap jsonChar).length ≤ 6 * s.length := by
    induction s with
    | nil => exact le_rfl
    | cons c s ih =>
      rw [flatMap_cons, length_append, length_cons]
      have := length_jsonChar_le c
      omega
  rw [jsonString, length_cons, length_append, length_singleton]
  omega

theorem length_jsonItems (vs : List (List UInt8)) :
    (jsonItems vs).length = (vs.map List.length).sum + (vs.length - 1) := by
  induction vs with
  | nil => rfl
  | cons v vs ih =>
    cases vs with
    | nil => simp [jsonItems]
    | cons w vs =>
      rw [jsonItems, length_append, length_cons, ih]
      simp only [map_cons, sum_cons, length_cons]
      omega

theorem length_jsonArray (vs : List (List UInt8)) :
    (jsonArray vs).length = 2 + (vs.map List.length).sum + (vs.length - 1) := by
  rw [jsonArray, length_cons, length_append, length_jsonItems, length_singleton]
  omega

theorem length_jsonField (name value : List UInt8) :
    (jsonField name value).length = (jsonString name).length + 1 + value.length := by
  rw [jsonField, length_append, length_cons]
  omega

theorem length_jsonObject (fields : List (List UInt8 × List UInt8)) :
    (jsonObject fields).length =
      2 + (fields.map fun f => (jsonString f.1).length + 1 + f.2.length).sum +
        (fields.length - 1) := by
  rw [jsonObject, length_cons, length_append, length_jsonItems, length_singleton,
    map_map, length_map]
  have : (length ∘ fun f : List UInt8 × List UInt8 => jsonField f.1 f.2) =
      fun f => (jsonString f.1).length + 1 + f.2.length :=
    funext fun f => length_jsonField f.1 f.2
  rw [this]
  omega

/-! ## Reading numbers -/

/-- Read a number back: digits only, and at least one. -/
def parseDigits (text : List UInt8) : Option Nat :=
  if text ≠ [] ∧ ∀ c ∈ text, 48 ≤ c ∧ c ≤ 57 then some (undigits (fun c => c.toNat - 48) 10 text)
  else none

theorem toNat_digit {d : Nat} (h : d < 10) : (UInt8.ofNat (48 + d)).toNat = 48 + d := by
  rw [UInt8.toNat_ofNat']
  omega

theorem parseDigits_jsonNumber (n : Nat) : parseDigits (jsonNumber n) = some n := by
  unfold jsonNumber
  split
  next h =>
    subst h
    decide +kernel
  next hn =>
  have hdigit : ∀ d ∈ Nat.digits 10 n, d < 10 := fun d hd => Nat.digits_lt_base (by decide) hd
  have hne : Nat.digits 10 n ≠ [] := Nat.digits_ne_nil_iff_ne_zero.mpr hn
  rw [parseDigits, if_pos]
  · have hfold : undigits (fun c : UInt8 => c.toNat - 48) 10
        ((Nat.digits 10 n).reverse.map fun d => UInt8.ofNat (48 + d)) =
        Nat.ofDigits 10 (Nat.digits 10 n) := by
      unfold undigits
      rw [foldl_map, foldl_reverse]
      generalize Nat.digits 10 n = l at hdigit
      induction l with
      | nil => rfl
      | cons d l ih =>
        rw [foldr_cons, ih fun d hd => hdigit d (mem_cons_of_mem _ hd)]
        show Nat.ofDigits 10 l * 10 + ((UInt8.ofNat (48 + d)).toNat - 48) = _
        rw [toNat_digit (hdigit d mem_cons_self), Nat.ofDigits_cons]
        omega
    rw [hfold, Nat.ofDigits_digits]
  · refine ⟨by simpa using hne, fun c hc => ?_⟩
    obtain ⟨d, hd, rfl⟩ := mem_map.mp hc
    have hlt := hdigit d (mem_reverse.mp hd)
    rw [UInt8.le_iff_toNat_le, UInt8.le_iff_toNat_le, toNat_digit hlt]
    exact ⟨by show 48 ≤ 48 + d; omega, by show 48 + d ≤ 57; omega⟩

end
