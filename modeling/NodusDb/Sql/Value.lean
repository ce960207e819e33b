import NodusDb.Raft.Records
import NodusDb.Sql.PlanTypes

/-!
# The text and the order of values

`render` is a value's text, `keyForm` the form in which equal decimals are the same,
and `compare` the order that `ORDER BY` and equality use. The conversions to and
from floats, and the text and order of JSON documents, are parameters.
-/

namespace NodusDb.Sql

/-- What values need of floats and of JSON documents. -/
class Primitives where
  /-- `float_text`. -/
  floatText : UInt64 → Text
  /-- `n as f64`. -/
  intToFloat : Int → UInt64
  /-- `decimal_to_f64`. -/
  numericToFloat : Numeric → UInt64
  /-- Whether a text has a `char::is_whitespace`. -/
  hasWhitespace : Text → Bool
  /-- `jsonb_text`. -/
  jsonbText : Json → Text
  /-- `jsonb_cmp`. -/
  jsonbCmp : Json → Json → Ordering

open Primitives

/-! ## Text -/

/-- `i64::to_string`. -/
def intText (n : Int) : Text :=
  if n < 0 then ascii "-" ++ jsonNumber n.natAbs else jsonNumber n.natAbs

/-- `Numeric::to_string`: the digits with a point before the last `scale` of them. -/
def Numeric.toText : Numeric → Text
  | .finite digits scale =>
    let text := jsonNumber digits.natAbs
    (if digits < 0 then ascii "-" else []) ++
      if scale = 0 then text
      else if scale < text.length then
        text.take (text.length - scale) ++ ascii "." ++ text.drop (text.length - scale)
      else ascii "0." ++ List.replicate (scale - text.length) 48 ++ text
  | .nan => ascii "NaN"
  | .infinity => ascii "Infinity"
  | .negInfinity => ascii "-Infinity"

/-- An upper-case or lower-case hexadecimal digit. -/
def hexDigit (letter : UInt8) (n : UInt8) : UInt8 := if n < 10 then 48 + n else letter + (n - 10)

def hexText (letter : UInt8) (bytes : Bytes) : Text :=
  bytes.flatMap fun b => [hexDigit letter (b / 16), hexDigit letter (b % 16)]

/-- The texts with a separator between them. -/
def joinText (sep : Text) : List Text → Text
  | [] => []
  | [t] => t
  | t :: ts => t ++ sep ++ joinText sep ts

section Text

variable [Primitives]

/-- A field of a row value: quoted when it is empty or has white space or a character of
the syntax of row values. -/
def recordField (text : Text) : Text :=
  if text = [] ∨ hasWhitespace text ∨ text.any (· ∈ ascii "\"\\(),") then
    ascii "\"" ++ (text.flatMap fun c => if c ∈ ascii "\"\\" then [c, c] else [c]) ++ ascii "\""
  else text

mutual

def render : Value → Text
  | .int n => intText n
  | .float bits => floatText bits
  | .numeric d => d.toText
  | .text s => s
  | .bool b => ascii (if b then "t" else "f")
  | .array items => ascii "\x7b" ++ joinText (ascii ",") (renderItems items) ++ ascii "\x7d"
  | .jsonb document => jsonbText document
  | .json text => text
  | .record fields => ascii "(" ++ joinText (ascii ",") (renderFields fields) ++ ascii ")"
  | .bytea bytes => ascii "\\x" ++ hexText 97 bytes
  | .null => []

def renderItems : List Value → List Text
  | [] => []
  | v :: vs => render v :: renderItems vs

def renderFields : List (Text × Value) → List Text
  | [] => []
  | (_, v) :: fields => (if v.isNull then [] else recordField (render v)) :: renderFields fields

end

end Text

/-! ## Keys -/

def Numeric.normalizeFinite : Int → Nat → Numeric
  | digits, 0 => .finite digits 0
  | digits, scale + 1 =>
    if digits % 10 = 0 then normalizeFinite (digits / 10) scale else .finite digits (scale + 1)

def Numeric.normalize : Numeric → Numeric
  | .finite digits scale => if digits = 0 then .finite 0 0 else normalizeFinite digits scale
  | d => d

mutual

/-- The form of a value in keys: equal decimals share it. -/
def keyForm : Value → Value
  | .numeric d => .numeric d.normalize
  | .array items => .array (keyForms items)
  | v => v

def keyForms : List Value → List Value
  | [] => []
  | v :: vs => keyForm v :: keyForms vs

end

/-! ## Order -/

/-- A number whose order is that of the float with these bits. -/
def floatRank (bits : UInt64) : Int :=
  let magnitude : Int := (bits % 2 ^ 63).toNat
  if bits < 2 ^ 63 then magnitude else -magnitude

/-- `f64::is_nan`. -/
def isNan (bits : UInt64) : Bool := 0x7FF0000000000000 < bits % 2 ^ 63

/-- NaN equals itself and is above every other value, and `-0` equals `0`. -/
def floatCmp (x y : UInt64) : Ordering :=
  match isNan x, isNan y with
  | true, true => .eq
  | true, false => .gt
  | false, true => .lt
  | false, false => Ord.compare (floatRank x) (floatRank y)

def Numeric.rank : Numeric → Nat
  | .negInfinity => 0
  | .finite _ _ => 1
  | .infinity => 2
  | .nan => 3

def Numeric.cmp : Numeric → Numeric → Ordering
  | .finite a sa, .finite b sb =>
    Ord.compare (a * 10 ^ (max sa sb - sa)) (b * 10 ^ (max sa sb - sb))
  | x, y => Ord.compare x.rank y.rank

/-- The order of values of different categories. -/
def typeRank : Value → Nat
  | .null => 0
  | .bool _ => 1
  | .int _ | .float _ | .numeric _ => 2
  | .text _ | .json _ => 3
  | .array _ => 4
  | .jsonb _ => 5
  | .record _ => 6
  | .bytea _ => 7

/-- `<[u8]>::cmp`. -/
def bytesCmp (x y : Bytes) : Ordering := if x < y then .lt else if x = y then .eq else .gt

section Order

variable [Primitives]

mutual

def compare : Value → Value → Ordering
  | .int x, .int y => Ord.compare x y
  | .float x, .float y => floatCmp x y
  | .int x, .float y => floatCmp (intToFloat x) y
  | .float x, .int y => floatCmp x (intToFloat y)
  | .numeric x, .numeric y => x.cmp y
  | .numeric x, .int y => x.cmp (.finite y 0)
  | .int x, .numeric y => (Numeric.finite x 0).cmp y
  | .numeric x, .float y => floatCmp (numericToFloat x) y
  | .float x, .numeric y => floatCmp x (numericToFloat y)
  | .bool x, .bool y => Ord.compare x y
  | .text x, .text y | .text x, .json y | .json x, .text y | .json x, .json y => bytesCmp x y
  | .null, .null => .eq
  | .array x, .array y => compareItems x y
  | .jsonb x, .jsonb y => jsonbCmp x y
  | .bytea x, .bytea y => bytesCmp x y
  | .record x, .record y => compareFields x y
  | a, b => Ord.compare (typeRank a) (typeRank b)

/-- The first items that differ decide, then the lengths. -/
def compareItems : List Value → List Value → Ordering
  | [], [] => .eq
  | [], _ :: _ => .lt
  | _ :: _, [] => .gt
  | x :: xs, y :: ys => (compare x y).then (compareItems xs ys)

def compareFields : List (Text × Value) → List (Text × Value) → Ordering
  | [], [] => .eq
  | [], _ :: _ => .lt
  | _ :: _, [] => .gt
  | (_, x) :: xs, (_, y) :: ys => (compare x y).then (compareFields xs ys)

end

/-- SQL equality of values that are not NULL. -/
def valuesEqual (a b : Value) : Bool := compare a b == .eq

end Order

end NodusDb.Sql
