import NodusDb.Lib.Json

/-!
# Texts

Texts are their UTF-8 bytes. White space is what Unicode counts as such.
-/

section

open List

/-! ## White space -/

/-- The UTF-8 bytes of the characters that are white space. -/
def whitespaces : List (List UInt8) :=
  [[9], [10], [11], [12], [13], [32], [0xC2, 0x85], [0xC2, 0xA0], [0xE1, 0x9A, 0x80],
    [0xE2, 0x80, 0x80], [0xE2, 0x80, 0x81], [0xE2, 0x80, 0x82], [0xE2, 0x80, 0x83],
    [0xE2, 0x80, 0x84], [0xE2, 0x80, 0x85], [0xE2, 0x80, 0x86], [0xE2, 0x80, 0x87],
    [0xE2, 0x80, 0x88], [0xE2, 0x80, 0x89], [0xE2, 0x80, 0x8A], [0xE2, 0x80, 0xA8],
    [0xE2, 0x80, 0xA9], [0xE2, 0x80, 0xAF], [0xE2, 0x81, 0x9F], [0xE3, 0x80, 0x80]]

/-- Drop words of a table from the front, at most as many as the first number. -/
def dropWords (table : List (List UInt8)) : Nat → List UInt8 → List UInt8
  | 0, text => text
  | fuel + 1, text =>
    match table.find? (·.isPrefixOf text) with
    | some word => dropWords table fuel (text.drop word.length)
    | none => text

def trimStart (text : List UInt8) : List UInt8 := dropWords whitespaces text.length text

def trimEnd (text : List UInt8) : List UInt8 :=
  (dropWords (whitespaces.map List.reverse) text.length text.reverse).reverse

def trim (text : List UInt8) : List UInt8 := trimEnd (trimStart text)

theorem dropWords_suffix (table : List (List UInt8)) (fuel : Nat) (text : List UInt8) :
    dropWords table fuel text <:+ text := by
  induction fuel generalizing text with
  | zero => exact suffix_rfl
  | succ fuel ih =>
    rw [dropWords]
    split
    · exact (ih _).trans (drop_suffix _ _)
    · exact suffix_rfl

variable {c : UInt8} {text : List UInt8} {n width : Nat}

theorem mem_of_mem_trim (h : c ∈ trim text) : c ∈ text := by
  have hstart : c ∈ trimStart text := by
    rw [trim, trimEnd, mem_reverse] at h
    exact mem_reverse.mp ((dropWords_suffix _ _ _).subset h)
  exact (dropWords_suffix _ _ _).subset hstart

/-- A character that no white space begins or ends with. -/
def Printable (c : UInt8) : Prop := 32 < c ∧ c < 128

instance (c : UInt8) : Decidable (Printable c) := inferInstanceAs (Decidable (_ ∧ _))

theorem dropWords_eq_self (fuel : Nat)
    (h : ∀ word ∈ table, ∃ b rest, word = b :: rest ∧ ¬ Printable b) (hc : Printable c) :
    dropWords table fuel (c :: text) = c :: text := by
  cases fuel with
  | zero => rfl
  | succ fuel =>
    have hnone : table.find? (·.isPrefixOf (c :: text)) = none := by
      rw [find?_eq_none]
      intro word hword hbegins
      obtain ⟨b, rest, rfl, hb⟩ := h word hword
      rw [List.isPrefixOf_iff_prefix, cons_prefix_cons] at hbegins
      exact hb (hbegins.1 ▸ hc)
    rw [dropWords, hnone]

theorem trimStart_cons (text : List UInt8) (hc : Printable c) :
    trimStart (c :: text) = c :: text := by
  have h : ∀ word ∈ whitespaces, (word.head?.any fun b => ¬ Printable b) = true := by decide
  refine dropWords_eq_self _ (fun word hword => ?_) hc
  cases word with
  | nil => exact absurd (h [] hword) (by decide)
  | cons b rest => exact ⟨b, rest, rfl, by simpa using h _ hword⟩

theorem trimEnd_concat (text : List UInt8) (hc : Printable c) :
    trimEnd (text ++ [c]) = text ++ [c] := by
  have h : ∀ word ∈ whitespaces.map reverse,
      (word.head?.any fun b => ¬ Printable b) = true := by decide
  rw [trimEnd, reverse_append, reverse_singleton, singleton_append,
    dropWords_eq_self _ (fun word hword => ?_) hc, reverse_cons, reverse_reverse]
  cases word with
  | nil => exact absurd (h [] hword) (by decide)
  | cons b rest => exact ⟨b, rest, rfl, by simpa using h _ hword⟩

theorem trim_eq_self (h : ∀ c ∈ text.head?, Printable c)
    (hlast : ∀ c ∈ text.getLast?, Printable c) : trim text = text := by
  cases text with
  | nil => rfl
  | cons c text =>
    rw [trim, trimStart_cons text (h c rfl)]
    obtain ⟨init, last, hinit⟩ : ∃ init last, c :: text = init ++ [last] :=
      ⟨_, _, (dropLast_concat_getLast (cons_ne_nil c text)).symm⟩
    rw [hinit]
    refine trimEnd_concat init (hlast last ?_)
    rw [hinit, getLast?_concat]
    rfl

theorem trim_of_all (h : ∀ c ∈ text, Printable c) : trim text = text :=
  trim_eq_self (fun c hc => h c (mem_of_mem_head? hc))
    fun c hc => h c (mem_of_mem_getLast? hc)

theorem trim_between (w : List UInt8) (hu : u ≠ []) (hv : v ≠ []) (hpu : ∀ c ∈ u, Printable c)
    (hpv : ∀ c ∈ v, Printable c) : trim (u ++ w ++ v) = u ++ w ++ v := by
  refine trim_eq_self (fun c hc => hpu c ?_) fun c hc => hpv c ?_
  · rw [append_assoc, head?_append_of_ne_nil _ hu] at hc
    exact mem_of_mem_head? hc
  · rw [getLast?_append_of_ne_nil _ hv] at hc
    exact mem_of_mem_getLast? hc

/-! ## Numbers -/

theorem takeWhile_append_stop {α : Type} {p : α → Bool} {u v : List α} (hu : ∀ a ∈ u, p a = true)
    (hv : ∀ a ∈ v.head?, p a = false) : (u ++ v).takeWhile p = u := by
  rw [takeWhile_append_of_pos hu]
  cases v with
  | nil => rw [takeWhile_nil, append_nil]
  | cons a v => rw [takeWhile_cons, hv a rfl, if_neg Bool.false_ne_true, append_nil]

def isDigit (c : UInt8) : Bool := 48 ≤ c && c ≤ 57

/-- A number with zeros before it, to a width. -/
def padded (width n : Nat) : List UInt8 :=
  List.replicate (width - (jsonNumber n).length) 48 ++ jsonNumber n

/-- Read a number of at most so many digits from the front. -/
def scanNumber (max : Nat) (text : List UInt8) : Option (Nat × List UInt8) :=
  let number := (text.take max).takeWhile isDigit
  (parseDigits number).map fun n => (n, text.drop number.length)

theorem head_jsonNumber (h : n ≠ 0) :
    ∃ d rest, jsonNumber n = UInt8.ofNat (48 + d) :: rest ∧ d ≠ 0 ∧ d < 10 := by
  have hne : Nat.digits 10 n ≠ [] := Nat.digits_ne_nil_iff_ne_zero.mpr h
  obtain ⟨init, last, hlast⟩ : ∃ init last, Nat.digits 10 n = init ++ [last] :=
    ⟨_, _, (dropLast_concat_getLast hne).symm⟩
  have hzero : last ≠ 0 := by
    have := Nat.getLast_digit_ne_zero 10 h
    simpa [hlast] using this
  refine ⟨last, init.reverse.map fun d => UInt8.ofNat (48 + d), ?_, hzero, ?_⟩
  · rw [jsonNumber, if_neg h, hlast, reverse_append]
    rfl
  · exact Nat.digits_lt_base (by decide) (hlast ▸ mem_append_right _ mem_cons_self)

theorem isDigit_iff : isDigit c = true ↔ 48 ≤ c ∧ c ≤ 57 := by
  rw [isDigit, Bool.and_eq_true, decide_eq_true_eq, decide_eq_true_eq]

theorem printable_of_isDigit (h : isDigit c = true) : Printable c := by
  rw [isDigit_iff] at h
  exact ⟨UInt8.lt_of_lt_of_le (by decide : (32 : UInt8) < 48) h.1,
    UInt8.lt_of_le_of_lt h.2 (by decide : (57 : UInt8) < 128)⟩

theorem digits_of_parseDigits (h : parseDigits text = some n) :
    text ≠ [] ∧ (∀ c ∈ text, isDigit c = true) ∧ n = undigits (fun c => c.toNat - 48) 10 text := by
  unfold parseDigits at h
  split at h
  next hdigits =>
    cases h
    exact ⟨hdigits.1, fun c hc => isDigit_iff.mpr (hdigits.2 c hc), rfl⟩
  · cases h

theorem undigits_replicate_zero (k : Nat) (text : List UInt8) :
    undigits (fun c => c.toNat - 48) 10 (List.replicate k 48 ++ text) =
      undigits (fun c => c.toNat - 48) 10 text := by
  induction k with
  | zero => rfl
  | succ k ih => exact ih

theorem parseDigits_padded (width n : Nat) : parseDigits (padded width n) = some n := by
  obtain ⟨hne, hdigits, hn⟩ := digits_of_parseDigits (parseDigits_jsonNumber n)
  rw [parseDigits, if_pos]
  · rw [padded, undigits_replicate_zero, ← hn]
  refine ⟨fun h => hne (append_eq_nil_iff.mp h).2, fun c hc => ?_⟩
  rcases mem_append.mp hc with hc | hc
  · rw [eq_of_mem_replicate hc]
    decide
  · exact isDigit_iff.mp (hdigits c hc)

theorem isDigit_of_mem_padded (h : c ∈ padded width n) : isDigit c = true :=
  (digits_of_parseDigits (parseDigits_padded width n)).2.1 c h

theorem padded_ne_nil (width n : Nat) : padded width n ≠ [] :=
  (digits_of_parseDigits (parseDigits_padded width n)).1

theorem length_padded (hwidth : 0 < width) (h : n < 10 ^ width) :
    (padded width n).length = width := by
  have hle := length_jsonNumber_le hwidth h
  rw [padded, length_append, length_replicate]
  omega

/-- A number is read back if no digit follows it, or if no more digits are read. -/
theorem scanNumber_padded {max : Nat} {rest : List UInt8} (hmax : (padded width n).length ≤ max)
    (h : (padded width n).length = max ∨ ∀ c ∈ rest.head?, isDigit c = false) :
    scanNumber max (padded width n ++ rest) = some (n, rest) := by
  have hdigits : ((padded width n ++ rest).take max).takeWhile isDigit = padded width n := by
    rw [take_append, take_of_length_le hmax]
    refine takeWhile_append_stop (fun c hc => isDigit_of_mem_padded hc) fun c hc => ?_
    rw [head?_take] at hc
    split at hc
    · cases hc
    next hpos =>
    rcases h with h | h
    · exact absurd (by omega) hpos
    · exact h c hc
  rw [scanNumber, hdigits, parseDigits_padded, Option.map_some, drop_left]

end
