import NodusDb.Sql.Temporal

/-!
# Decimals as texts

`Numeric::parse` reads a decimal: an optional sign, digits with a point and an exponent, digits
in another base behind `0x`, `0o` or `0b`, and the names of NaN and of the infinities. A
decimal is stored as its text.
-/

namespace NodusDb.Sql

open List

/-! ## Parsing -/

/-- `char::to_digit(36)`. -/
def digitOf (c : UInt8) : Option Nat :=
  if isDigit c then some (c.toNat - 48)
  else if 97 ≤ c ∧ c ≤ 122 then some (c.toNat - 87)
  else if 65 ≤ c ∧ c ≤ 90 then some (c.toNat - 55)
  else none

/-- `char::is_digit`. -/
def isDigitIn (radix : Nat) (c : UInt8) : Bool := (digitOf c).any (· < radix)

/-- The digits without the underscores, each of which stands between two digits. The flag says
whether one may stand here. -/
def ungroup (radix : Nat) (allowed : Bool) : Text → Option Text
  | [] => some []
  | c :: rest =>
    if c = 95 then
      if allowed ∧ rest.head?.any (isDigitIn radix) then ungroup radix false rest else none
    else if isDigitIn radix c then (ungroup radix true rest).map (c :: ·)
    else none

/-- `ungrouped`: behind `0x` and the like an underscore may stand first. -/
def ungrouped (text : Text) (radix : Nat) : Option Text :=
  if text = [] then none else ungroup radix (radix ≠ 10) text

/-- `BigInt::parse_bytes`, of digits. -/
def parseRadix (digits : Text) (radix : Nat) : Option Nat :=
  if digits = [] then none else some (undigits (fun c => (digitOf c).getD 0) radix digits)

def isNumericSpace (c : UInt8) : Bool := c ∈ [32, 9, 10, 13, 11, 12]

/-- `str::trim_matches`. -/
def trimMatches (p : UInt8 → Bool) (text : Text) : Text :=
  ((text.dropWhile p).reverse.dropWhile p).reverse

def splitSign : Text → Bool × Text
  | 45 :: rest => (true, rest)
  | 43 :: rest => (false, rest)
  | text => (false, text)

def radixOf : Text → Nat
  | 48 :: c :: _ =>
    if c = 120 ∨ c = 88 then 16
    else if c = 111 ∨ c = 79 then 8
    else if c = 98 ∨ c = 66 then 2
    else 10
  | _ => 10

/-- The number behind `e`. -/
def parseExponent (text : Text) : Option Int := do
  let (negative, body) := splitSign text
  let digits ← ungrouped body 10
  let n ← parseRadix digits 10
  if n > 1073741823 then none
  else some (if negative then -n else n)

/-- The digits of a part of a decimal, which may be missing. -/
def partDigits (text : Text) : Option Text := if text = [] then some [] else ungrouped text 10

/-- At most 16383 digits behind the point, and 131072 before it. -/
def Numeric.InRange : Numeric → Prop
  | .finite digits scale => scale ≤ 16383 ∧
      (digits = 0 ∨ ((jsonNumber digits.natAbs).length : Int) - 1 - scale < 131072)
  | _ => True

instance (d : Numeric) : Decidable d.InRange :=
  match d with
  | .finite _ _ => inferInstanceAs (Decidable (_ ∧ _))
  | .nan | .infinity | .negInfinity => inferInstanceAs (Decidable True)

def Numeric.checkedRange (d : Numeric) : Option Numeric := if d.InRange then some d else none

def parseDecimal (body : Text) (sign : Nat → Int) : Option Numeric := do
  let (mantissa, exponent) :=
    (body.takeWhile fun c => c ≠ 101 ∧ c ≠ 69, body.dropWhile fun c => c ≠ 101 ∧ c ≠ 69)
  let (whole, fraction) := (splitOnce 46 mantissa).getD (mantissa, [])
  let whole ← partDigits whole
  let fraction ← partDigits fraction
  if whole = [] ∧ fraction = [] then none
  else
    let exponent ← match exponent with
      | [] => some 0
      | _ :: text => parseExponent text
    let m ← parseRadix (whole ++ fraction) 10
    let scale := (fraction.length : Int) - exponent
    (if 0 ≤ scale then Numeric.finite (sign m) scale.toNat
      else .finite (sign m * 10 ^ (-scale).toNat) 0).checkedRange

/-- `Numeric::parse`. -/
def Numeric.parse (text : Text) : Option Numeric :=
  let t := trimMatches isNumericSpace text
  let lower := t.map asciiLower
  if lower = ascii "nan" then some .nan
  else if lower ∈ [ascii "infinity", ascii "+infinity", ascii "inf", ascii "+inf"] then
    some .infinity
  else if lower ∈ [ascii "-infinity", ascii "-inf"] then some .negInfinity
  else
    let (negative, body) := splitSign t
    let sign (m : Nat) : Int := if negative then -m else m
    if radixOf body ≠ 10 then do
      let digits ← ungrouped (body.drop 2) (radixOf body)
      let m ← parseRadix digits (radixOf body)
      some (.finite (sign m) 0)
    else parseDecimal body sign

/-! ## Digits -/

variable {c : UInt8} {text fraction whole : Text} {m : Nat}

theorem isDigitIn_ten (h : isDigit c = true) : isDigitIn 10 c = true := by
  rw [isDigitIn, digitOf, if_pos h, Option.any_some, decide_eq_true_eq]
  have hle := (isDigit_iff.mp h).2
  rw [UInt8.le_iff_toNat_le] at hle
  change c.toNat ≤ 57 at hle
  omega

theorem ungroup_of_digits (h : ∀ c ∈ text, isDigit c = true) (allowed : Bool) :
    ungroup 10 allowed text = some text := by
  induction text generalizing allowed with
  | nil => rfl
  | cons c text ih =>
    rw [forall_mem_cons] at h
    have hne : c ≠ 95 := by
      rintro rfl
      exact absurd h.1 (by decide)
    rw [ungroup, if_neg hne, if_pos (isDigitIn_ten h.1), ih h.2, Option.map_some]

theorem partDigits_of_digits (h : ∀ c ∈ text, isDigit c = true) : partDigits text = some text := by
  unfold partDigits ungrouped
  split
  next hnil => rw [hnil]
  · exact ungroup_of_digits h _

theorem parseRadix_ten (h : parseDigits text = some m) : parseRadix text 10 = some m := by
  obtain ⟨hne, hdigits, rfl⟩ := digits_of_parseDigits h
  rw [parseRadix, if_neg hne, undigits, undigits]
  congr 1
  refine foldl_ext _ _ _ fun n c hc => ?_
  rw [digitOf, if_pos (hdigits c hc), Option.getD_some]

def pointed (fraction : Text) : Text := if fraction = [] then [] else 46 :: fraction

theorem parseDecimal_plain (hne : whole ≠ [])
    (hwhole : ∀ c ∈ whole, isDigit c = true) (hfraction : ∀ c ∈ fraction, isDigit c = true)
    (hm : parseDigits (whole ++ fraction) = some m) (sign : Nat → Int) :
    parseDecimal (whole ++ pointed fraction) sign =
      (Numeric.finite (sign m) fraction.length).checkedRange := by
  have hdigit : ∀ c, isDigit c = true → c ≠ 101 ∧ c ≠ 69 ∧ c ≠ 46 := by
    rintro c hc
    refine ⟨?_, ?_, ?_⟩ <;> rintro rfl <;> exact absurd hc (by decide)
  have hmantissa : ∀ c ∈ whole ++ pointed fraction, decide (c ≠ 101 ∧ c ≠ 69) = true := by
    intro c hc
    rw [decide_eq_true_eq]
    rcases mem_append.mp hc with hc | hc
    · exact ⟨(hdigit c (hwhole c hc)).1, (hdigit c (hwhole c hc)).2.1⟩
    unfold pointed at hc
    split at hc
    · cases hc
    rcases mem_cons.mp hc with rfl | hc
    · decide
    · exact ⟨(hdigit c (hfraction c hc)).1, (hdigit c (hfraction c hc)).2.1⟩
  have hsplit : (splitOnce 46 (whole ++ pointed fraction)).getD (whole ++ pointed fraction, []) =
      (whole, fraction) := by
    have hpoint : (46 : UInt8) ∉ whole := fun hc => (hdigit 46 (hwhole 46 hc)).2.2 rfl
    unfold pointed
    split
    next hnil => rw [append_nil, splitOnce_eq_none hpoint, hnil, Option.getD_none]
    · rw [splitOnce_append _ hpoint, Option.getD_some]
  rw [parseDecimal, takeWhile_eq_self_iff.mpr hmantissa, dropWhile_eq_nil_iff.mpr hmantissa]
  simp only [hsplit, partDigits_of_digits hwhole, partDigits_of_digits hfraction, hne, false_and,
    if_false, parseRadix_ten hm, Option.bind_eq_bind, Option.bind_some, sub_zero]
  rw [if_pos (Int.natCast_nonneg _), Int.toNat_natCast]

/-! ## Texts of decimals -/

def plainChars : Text := ascii "0123456789."

theorem mem_plainChars_of_isDigit (h : isDigit c = true) : c ∈ plainChars := by
  rw [isDigit_iff, UInt8.le_iff_toNat_le, UInt8.le_iff_toNat_le] at h
  change 48 ≤ c.toNat ∧ c.toNat ≤ 57 at h
  have hall : ∀ d : Fin 10, UInt8.ofNat (48 + d) ∈ plainChars := by decide
  have hmem := hall ⟨c.toNat - 48, by omega⟩
  rwa [show 48 + (c.toNat - 48) = c.toNat by omega, UInt8.ofNat_toNat] at hmem

theorem mem_plainChars (hwhole : ∀ c ∈ whole, isDigit c = true)
    (hfraction : ∀ c ∈ fraction, isDigit c = true) (h : c ∈ whole ++ pointed fraction) :
    c ∈ plainChars := by
  rcases mem_append.mp h with h | h
  · exact mem_plainChars_of_isDigit (hwhole c h)
  unfold pointed at h
  split at h
  · cases h
  rcases mem_cons.mp h with rfl | h
  · decide
  · exact mem_plainChars_of_isDigit (hfraction c h)

theorem trimMatches_eq_self {p : UInt8 → Bool} (h : ∀ c ∈ text, p c = false) :
    trimMatches p text = text := by
  have hself : ∀ l : Text, (∀ c ∈ l, p c = false) → l.dropWhile p = l := by
    intro l hl
    cases l with
    | nil => rfl
    | cons c l => rw [dropWhile_cons_of_neg (by rw [hl c mem_cons_self]; decide)]
  rw [trimMatches, hself text h, hself _ fun c hc => h c (mem_reverse.mp hc), reverse_reverse]

theorem radixOf_plain {body : Text} (h : ∀ c ∈ body, c ∈ plainChars) : radixOf body = 10 := by
  have hall : ∀ c ∈ plainChars, ∀ rest, radixOf (48 :: c :: rest) = 10 := by
    intro c hc rest
    revert c
    simp only [radixOf]
    decide +kernel
  unfold radixOf
  split
  next c rest => exact hall c (h c (mem_cons_of_mem _ mem_cons_self)) rest
  · rfl

theorem splitSign_plain {body : Text} (h : ∀ c ∈ body, c ∈ plainChars) :
    splitSign body = (false, body) := by
  unfold splitSign
  split
  · exact absurd (h 45 mem_cons_self) (by decide)
  · exact absurd (h 43 mem_cons_self) (by decide)
  · rfl

theorem parse_plain (negative : Bool) (hne : whole ≠ [])
    (hwhole : ∀ c ∈ whole, isDigit c = true) (hfraction : ∀ c ∈ fraction, isDigit c = true)
    (hm : parseDigits (whole ++ fraction) = some m) :
    Numeric.parse ((if negative then ascii "-" else []) ++ (whole ++ pointed fraction)) =
      (Numeric.finite (if negative then -m else m) fraction.length).checkedRange := by
  have hplain : ∀ c ∈ whole ++ pointed fraction, c ∈ plainChars := fun c =>
    mem_plainChars hwhole hfraction
  set text := (if negative then ascii "-" else []) ++ (whole ++ pointed fraction) with htext
  have hchars : ∀ c ∈ text, c ∈ plainChars ++ ascii "-" := by
    intro c hc
    rcases mem_append.mp hc with hc | hc
    · split at hc
      · exact mem_append_right _ hc
      · cases hc
    · exact mem_append_left _ (hplain c hc)
  have htrim : trimMatches isNumericSpace text = text := by
    have hall : ∀ c ∈ plainChars ++ ascii "-", isNumericSpace c = false := by decide +kernel
    exact trimMatches_eq_self fun c hc => hall c (hchars c hc)
  -- Every name of a special value has an `n`.
  have hnames : ∀ name : Text, 110 ∈ name → text.map asciiLower ≠ name := by
    have hall : ∀ c ∈ plainChars ++ ascii "-", asciiLower c ≠ 110 := by decide +kernel
    rintro name hname rfl
    obtain ⟨c, hc, hlower⟩ := mem_map.mp hname
    exact hall c (hchars c hc) hlower
  have hspecial : ∀ names : List Text, (∀ name ∈ names, 110 ∈ name) → text.map asciiLower ∉ names :=
    fun names hn hmem => hnames _ (hn _ hmem) rfl
  have hsign : splitSign text = (negative, whole ++ pointed fraction) := by
    cases negative with
    | true => rfl
    | false => exact splitSign_plain hplain
  rw [Numeric.parse, htrim, if_neg (hnames _ (by decide)), if_neg (hspecial _ (by decide)),
    if_neg (hspecial _ (by decide)), hsign]
  show (if radixOf (whole ++ pointed fraction) ≠ 10 then _ else _) = _
  rw [if_neg (by rw [radixOf_plain hplain]; decide)]
  exact parseDecimal_plain hne hwhole hfraction hm _

theorem toText_finite (digits : Int) (scale : Nat) :
    ∃ whole fraction, whole ≠ [] ∧ (∀ c ∈ whole, isDigit c = true) ∧
      (∀ c ∈ fraction, isDigit c = true) ∧
      parseDigits (whole ++ fraction) = some digits.natAbs ∧ fraction.length = scale ∧
      (Numeric.finite digits scale).toText =
        (if digits < 0 then ascii "-" else []) ++ (whole ++ pointed fraction) := by
  obtain ⟨hne, hdigits, _⟩ := digits_of_parseDigits (parseDigits_jsonNumber digits.natAbs)
  rw [Numeric.toText]
  set text := jsonNumber digits.natAbs with htext
  by_cases hscale : scale = 0
  · refine ⟨text, [], hne, hdigits, forall_mem_nil _, ?_, hscale.symm, ?_⟩
    · rw [append_nil, htext, parseDigits_jsonNumber]
    · rw [if_pos hscale, pointed, if_pos rfl, append_nil]
  by_cases hlength : scale < text.length
  · have hdrop : text.drop (text.length - scale) ≠ [] := by
      rw [ne_eq, drop_eq_nil_iff]
      omega
    refine ⟨text.take (text.length - scale), text.drop (text.length - scale), ?_,
      fun c hc => hdigits c (mem_of_mem_take hc),
      fun c hc => hdigits c (mem_of_mem_drop hc), ?_, ?_, ?_⟩
    · rw [ne_eq, take_eq_nil_iff, not_or]
      exact ⟨by omega, hne⟩
    · rw [take_append_drop, htext, parseDigits_jsonNumber]
    · rw [length_drop]
      omega
    · rw [if_neg hscale, if_pos hlength, pointed, if_neg hdrop, append_assoc]
      rfl
  · have hfraction : replicate (scale - text.length) 48 ++ text ≠ [] := fun h =>
      hne (append_eq_nil_iff.mp h).2
    refine ⟨[48], replicate (scale - text.length) 48 ++ text, cons_ne_nil _ _,
      fun c hc => mem_singleton.mp hc ▸ by decide, fun c hc => ?_, ?_, ?_, ?_⟩
    · rcases mem_append.mp hc with hc | hc
      · rw [eq_of_mem_replicate hc]
        decide
      · exact hdigits c hc
    · have hpadded : [48] ++ (replicate (scale - text.length) 48 ++ text) =
          padded (scale + 1) digits.natAbs := by
        rw [padded, ← htext, show scale + 1 - text.length = scale - text.length + 1 by omega,
          replicate_succ]
        rfl
      rw [hpadded, parseDigits_padded]
    · rw [length_append, length_replicate]
      omega
    · rw [if_neg hscale, if_neg hlength, pointed, if_neg hfraction, append_assoc (ascii "0.")]
      rfl

theorem Numeric.parse_toText (d : Numeric) : Numeric.parse d.toText = d.checkedRange := by
  cases d with
  | nan | infinity | negInfinity => decide +kernel
  | finite digits scale =>
    obtain ⟨whole, fraction, hne, hwhole, hfraction, hm, rfl, htext⟩ := toText_finite digits scale
    have hparse := parse_plain (decide (digits < 0)) hne hwhole hfraction hm
    rw [htext]
    by_cases hneg : digits < 0
    · rw [decide_eq_true hneg] at hparse
      rw [if_pos hneg]
      refine hparse.trans ?_
      rw [if_pos rfl, show -(digits.natAbs : Int) = digits by omega]
    · rw [decide_eq_false hneg] at hparse
      rw [if_neg hneg]
      refine hparse.trans ?_
      rw [if_neg (by decide), show (digits.natAbs : Int) = digits by omega]

end NodusDb.Sql
