import NodusDb.Sql.IndexRegion

/-!
# Keys of points in time

A date or timestamp column keeps texts. The key of a text that is read as a finite
instant is its number; the key of `infinity` and of `-infinity` is their text.

* `temporal_keys_chronological`: which two instants have keys in their order, and the range
  scans that are right with such keys.
-/

namespace NodusDb.Sql

open Instant Option

/-! ## Ranges -/

theorem DateInRange.days {days : Int} (h : DateInRange days) :
    -97000000 ≤ days ∧ days ≤ 97000000 := by
  obtain ⟨hspec, hday⟩ := yearAndDay_spec (days + 719468)
  obtain ⟨hlow, hhigh⟩ := h
  unfold CivilDate.ofDays at hlow hhigh
  generalize yearAndDay (days + 719468) = yd at *
  obtain ⟨year, day⟩ := yd
  simp only at hlow hhigh hspec hday
  unfold daysBefore at hspec
  have hyear : -262144 ≤ year ∧ year ≤ 262142 := by
    split at hlow <;> omega
  omega

variable {kind : InstantKind}

theorem InstantKind.InRange.inI64 (h : kind.InRange (.finite n)) : InI64 n := by
  unfold InI64
  cases kind with
  | date =>
    have hdays : -97000000 ≤ n ∧ n ≤ 97000000 := DateInRange.days h
    omega
  | timestamp | timestampTz =>
    have hdays : -97000000 ≤ n / 86400000000 ∧ n / 86400000000 ≤ 97000000 := DateInRange.days h
    omega

/-! ## Keys -/

structure InstantColumn where
  kind : InstantKind
  dataType : Text
  named : instantKind dataType = some kind

structure StoredInstant (kind : InstantKind) where
  instant : Instant
  inRange : kind.InRange instant

def StoredInstant.value {kind : InstantKind} (a : StoredInstant kind) : Value :=
  .text (a.instant.text kind)

/-- The first eight bytes behind the marker, as a number. -/
def Instant.code : Instant → UInt64
  | .finite n => flipSign (UInt64.ofInt n)
  | .infinity => 0x696E66696E697479
  | .negInfinity => 0x2D696E66696E6974

def Instant.rest : Instant → Bytes
  | .negInfinity => [121, 0]
  | _ => [0]

def Instant.bytes (i : Instant) : Bytes := 1 :: (toBeBytes i.code ++ i.rest)

theorem keyBytes_instant [Zones] (column : InstantColumn) (a : StoredInstant column.kind) :
    keyBytes a.value column.dataType = some a.instant.bytes := by
  rw [StoredInstant.value, keyBytes, textBytes, column.named, bind_some, parseAs_text a.inRange]
  cases a.instant with
  | finite n => rfl
  | infinity =>
    have htext : 1 :: (ascii "infinity" ++ [0]) = infinity.bytes := by decide +kernel
    exact congrArg some htext
  | negInfinity =>
    have htext : 1 :: (ascii "-infinity" ++ [0]) = negInfinity.bytes := by decide +kernel
    exact congrArg some htext

theorem toBeBytes_below (h : x.toNat < y.toNat) :
    Below (toBeBytes x) (toBeBytes y) :=
  below_of_length_eq (by simp) ((toBeBytes_lt_iff x y).mpr h)

/-- The numbers decide, then whether the key is that of `-infinity`. -/
def Instant.keyLt (a b : Instant) : Prop :=
  a.code.toNat < b.code.toNat ∨ a.code.toNat = b.code.toNat ∧ a ≠ .negInfinity ∧ b = .negInfinity

theorem Instant.bytes_below {a b : Instant} (h : a.keyLt b) : Below a.bytes b.bytes := by
  rcases h with h | ⟨h, ha, rfl⟩
  · exact ((toBeBytes_below h).append _ _).append_left [1]
  rw [bytes, bytes, UInt64.toNat_inj.mp h]
  have hrest : Below a.rest negInfinity.rest := by
    cases a with
    | negInfinity => exact absurd rfl ha
    | finite n | infinity => exact below_cons (by decide : (0 : UInt8) < 121) _ _
  exact (hrest.append_left (toBeBytes _)).append_left [1]

theorem Instant.keyLt_trichotomy (a b : Instant) : a.keyLt b ∨ a.bytes = b.bytes ∨ b.keyLt a := by
  rcases lt_trichotomy a.code.toNat b.code.toNat with h | h | h
  · exact .inl (.inl h)
  · by_cases ha : a = .negInfinity
    · by_cases hb : b = .negInfinity
      · exact .inr (.inl (by rw [ha, hb]))
      · exact .inr (.inr (.inr ⟨h.symm, hb, ha⟩))
    · by_cases hb : b = .negInfinity
      · exact .inl (.inr ⟨h, ha, hb⟩)
      · refine .inr (.inl ?_)
        have hrest : ∀ i : Instant, i ≠ .negInfinity → i.rest = [0] := by
          intro i hi
          cases i with
          | negInfinity => exact absurd rfl hi
          | finite n => rfl
          | infinity => rfl
        rw [bytes, bytes, UInt64.toNat_inj.mp h, hrest a ha, hrest b hb]
  · exact .inr (.inr (.inl h))

section Keys

variable [Zones] (column : InstantColumn)

def StoredInstant.word {kind : InstantKind} (a : StoredInstant kind) : Text :=
  hexText 65 a.instant.bytes

theorem keyComponent_instant (a : StoredInstant column.kind) :
    keyComponent a.value column.dataType = some a.word := by
  rw [keyComponent, keyBytes_instant]
  rfl

end Keys

section Words

variable {kind : InstantKind} (a b : StoredInstant kind)

theorem word_trichotomy : Below a.word b.word ∨ a.word = b.word ∨ Below b.word a.word := by
  rcases a.instant.keyLt_trichotomy b.instant with h | h | h
  · exact .inl (hexText_below (bytes_below h))
  · exact .inr (.inl (congrArg (hexText 65) h))
  · exact .inr (.inr (hexText_below (bytes_below h)))

theorem word_lt_iff : a.word < b.word ↔ Below a.word b.word := by
  refine ⟨fun hlt => ?_, Below.lt⟩
  rcases word_trichotomy a b with h | h | h
  · exact h
  · exact absurd hlt (h ▸ lt_irrefl _)
  · exact absurd hlt (lt_asymm h.lt)

theorem word_below_iff : Below a.word b.word ↔ a.instant.keyLt b.instant := by
  refine ⟨fun hbelow => ?_, fun h => hexText_below (bytes_below h)⟩
  rcases a.instant.keyLt_trichotomy b.instant with h | h | h
  · exact h
  · exact absurd (congrArg (hexText 65) h) hbelow.ne
  · exact absurd (hexText_below (bytes_below h)).lt (lt_asymm hbelow.lt)

end Words

/-! ## Order in time -/

def Instant.Earlier : Instant → Instant → Prop
  | .negInfinity, .negInfinity => False
  | .negInfinity, _ => True
  | .finite n, .finite m => n < m
  | .finite _, .infinity => True
  | _, _ => False

/-- The numbers whose keys are the first eight bytes of the keys of the infinite instants. -/
def infinityNumber : Int := -1626249812424166279
def negInfinityNumber : Int := -5951104046458836620

/-- The keys of the two instants are in their order: only the instants before all others
are below `infinity`, and only those after them above `-infinity`. -/
def Instant.InOrder : Instant → Instant → Prop
  | .finite n, .infinity => n < infinityNumber
  | .infinity, .finite n => n ≤ infinityNumber
  | .finite n, .negInfinity => negInfinityNumber < n
  | .negInfinity, .finite n => negInfinityNumber < n
  | _, _ => True

theorem code_finite (h : InI64 n) :
    ((finite n).code.toNat : Int) = n + 2 ^ 63 := toNat_flipSign_ofInt h

theorem code_infinity : (Instant.infinity.code.toNat : Int) = infinityNumber + 2 ^ 63 := by
  decide +kernel

theorem code_negInfinity : (Instant.negInfinity.code.toNat : Int) = negInfinityNumber + 2 ^ 63 := by
  decide +kernel

theorem keyLt_iff_earlier (a b : StoredInstant kind) :
    (a.instant.keyLt b.instant ↔ a.instant.Earlier b.instant) ↔ a.instant.InOrder b.instant := by
  obtain ⟨a, ha⟩ := a
  obtain ⟨b, hb⟩ := b
  have hinf := code_infinity
  have hneg := code_negInfinity
  unfold infinityNumber at hinf
  unfold negInfinityNumber at hneg
  cases a with
  | finite n =>
    have hn := code_finite ha.inI64
    cases b with
    | finite m =>
      have hm := code_finite hb.inI64
      simp only [Instant.keyLt, Instant.Earlier, Instant.InOrder, reduceCtorEq, and_false, or_false,
        iff_true]
      omega
    | infinity =>
      simp only [Instant.keyLt, Instant.Earlier, Instant.InOrder, reduceCtorEq, and_false, or_false,
        iff_true, infinityNumber]
      omega
    | negInfinity =>
      simp only [Instant.keyLt, Instant.Earlier, Instant.InOrder, ne_eq, reduceCtorEq,
        not_false_eq_true, and_true, iff_false, negInfinityNumber]
      omega
  | infinity =>
    cases b with
    | finite m =>
      have hm := code_finite hb.inI64
      simp only [Instant.keyLt, Instant.Earlier, Instant.InOrder, reduceCtorEq, and_false, or_false,
        iff_false, infinityNumber]
      omega
    | infinity => simp [Instant.keyLt, Instant.Earlier, Instant.InOrder]
    | negInfinity =>
      simp only [Instant.keyLt, Instant.Earlier, Instant.InOrder, ne_eq, reduceCtorEq,
        not_false_eq_true, and_true, iff_false, iff_true]
      omega
  | negInfinity =>
    cases b with
    | finite m =>
      have hm := code_finite hb.inI64
      simp only [Instant.keyLt, Instant.Earlier, Instant.InOrder, ne_eq, reduceCtorEq,
        not_true_eq_false, and_false, or_false, iff_true, negInfinityNumber]
      omega
    | infinity =>
      simp only [Instant.keyLt, Instant.Earlier, Instant.InOrder, ne_eq, reduceCtorEq,
        not_true_eq_false, and_false, or_false, iff_true]
      omega
    | negInfinity => simp [Instant.keyLt, Instant.Earlier, Instant.InOrder]

theorem word_below_iff_earlier {a b : StoredInstant kind} (h : a.instant.InOrder b.instant) :
    Below a.word b.word ↔ a.instant.Earlier b.instant := by
  rw [word_below_iff]
  exact (keyLt_iff_earlier a b).mpr h

section Scans

variable [Zones] (column : InstantColumn)

/-- A bound of a range, and whether it belongs to the range. -/
abbrev InstantBound (kind : InstantKind) := StoredInstant kind × Bool

def InstantBound.bound {kind : InstantKind} (b : InstantBound kind) : Bound := (b.1.value, b.2)

/-- A scan of an index on the column reads the entry of an instant. -/
def ReadsInstant (indexId pk : Text) (lower upper : Option (InstantBound column.kind))
    (a : StoredInstant column.kind) : Prop :=
  ∃ region entry,
    indexPrefixRegion indexId [] (some ⟨column.dataType, lower.map InstantBound.bound,
      upper.map InstantBound.bound⟩) = some region ∧
    indexKeyFor indexId pk [column.dataType] [a.value] = some entry ∧
    region.1 ≤ entry ∧ entry < region.2

def Instant.Within {kind : InstantKind} (lower upper : Option (InstantBound kind)) (a : Instant) :
    Prop :=
  (∀ b ∈ lower, if b.2 then ¬ a.Earlier b.1.instant else b.1.instant.Earlier a) ∧
    ∀ b ∈ upper, if b.2 then ¬ b.1.instant.Earlier a else a.Earlier b.1.instant

variable {column} {a : StoredInstant column.kind}

theorem regionStart_instant (base pk : Text) {lower : Option (InstantBound column.kind)}
    (h : ∀ b ∈ lower, a.instant.InOrder b.1.instant ∧ b.1.instant.InOrder a.instant) :
    ∃ start, regionStart base column.dataType (lower.map InstantBound.bound) = some start ∧
      (start ≤ base ++ (a.word ++ 45 :: pk) ↔
        ∀ b ∈ lower, if b.2 then ¬ a.instant.Earlier b.1.instant
          else b.1.instant.Earlier a.instant) := by
  cases lower with
  | none => exact ⟨base, rfl, iff_of_true (le_append _ _) fun b hb => by cases hb⟩
  | some b =>
    obtain ⟨b, inclusive⟩ := b
    obtain ⟨hab, hba⟩ := h _ rfl
    have htri := word_trichotomy a b
    rw [map_some, InstantBound.bound, regionStart, keyComponent_instant column b]
    refine ⟨_, rfl, ?_⟩
    simp only [mem_def, some.injEq, forall_eq']
    cases inclusive with
    | true =>
      simp only [if_true]
      rw [append_le_append_left_iff, le_entry_iff pk htri (by decide), word_below_iff_earlier hab]
    | false =>
      simp only [if_false, Bool.false_eq_true]
      rw [List.append_assoc, append_le_append_left_iff, behind_le_entry_iff pk htri (by decide),
        word_below_iff_earlier hba]

theorem regionEnd_instant (base pk : Text) {upper : Option (InstantBound column.kind)}
    (h : ∀ b ∈ upper, a.instant.InOrder b.1.instant ∧ b.1.instant.InOrder a.instant) :
    ∃ stop, regionEnd base column.dataType (upper.map InstantBound.bound) = some stop ∧
      (base ++ (a.word ++ 45 :: pk) < stop ↔
        ∀ b ∈ upper, if b.2 then ¬ b.1.instant.Earlier a.instant
          else a.instant.Earlier b.1.instant) := by
  cases upper with
  | none =>
    refine ⟨base ++ ascii "G", rfl, iff_of_true ?_ fun b hb => by cases hb⟩
    rw [append_lt_append_left_iff]
    exact (below_cons (by decide : (48 : UInt8) < 71) _ []).lt
  | some b =>
    obtain ⟨b, inclusive⟩ := b
    obtain ⟨hab, hba⟩ := h _ rfl
    have htri := word_trichotomy a b
    rw [map_some, InstantBound.bound, regionEnd, keyComponent_instant column b]
    refine ⟨_, rfl, ?_⟩
    simp only [mem_def, some.injEq, forall_eq']
    cases inclusive with
    | true =>
      simp only [if_true]
      rw [List.append_assoc, append_lt_append_left_iff, entry_lt_behind_iff pk htri (by decide),
        word_below_iff_earlier hba]
    | false =>
      simp only [if_false, Bool.false_eq_true]
      rw [append_lt_append_left_iff, entry_lt_iff pk htri (by decide), word_below_iff_earlier hab]

/-- A scan of a range reads the instants of the range, if the keys of the instant and of the
bounds are in order. -/
theorem readsInstant_iff (indexId pk : Text) {lower upper : Option (InstantBound column.kind)}
    (h : ∀ b, b ∈ lower ∨ b ∈ upper →
      a.instant.InOrder b.1.instant ∧ b.1.instant.InOrder a.instant) :
    ReadsInstant column indexId pk lower upper a ↔ a.instant.Within lower upper := by
  obtain ⟨start, hstart, hstartIff⟩ :=
    regionStart_instant (indexBase indexId) pk fun b hb => h b (.inl hb)
  obtain ⟨stop, hstop, hstopIff⟩ :=
    regionEnd_instant (indexBase indexId) pk fun b hb => h b (.inr hb)
  have hregion : indexPrefixRegion indexId [] (some ⟨column.dataType,
      lower.map InstantBound.bound, upper.map InstantBound.bound⟩) = some (start, stop) := by
    simp only [indexPrefixRegion, List.append_nil, hstart, hstop, bind_eq_bind, bind_some]
  have hentry : indexKeyFor indexId pk [column.dataType] [a.value] =
      some (indexBase indexId ++ (a.word ++ 45 :: pk)) := by
    simp only [indexKeyFor, indexKeyComponents, keyComponents, keyComponent_instant column a,
      bind_eq_bind, bind_some, map_some, joinText, List.append_assoc]
    rfl
  rw [ReadsInstant, hregion, hentry, Instant.Within, ← hstartIff, ← hstopIff]
  constructor
  · rintro ⟨region, entry, hr, he, hreads⟩
    cases hr
    cases he
    exact hreads
  · intro hreads
    exact ⟨_, _, rfl, rfl, hreads⟩

end Scans

/-- The key of one instant is below that of another exactly when it is earlier, if and only
if both are finite, both are infinite, or the finite one is on the right side of the texts of
the infinite ones. With such keys a scan of a range reads what is in the range. -/
theorem temporal_keys_chronological [Zones] (column : InstantColumn) :
    (∀ a b : StoredInstant column.kind,
      (∃ u v, keyComponent a.value column.dataType = some u ∧
        keyComponent b.value column.dataType = some v ∧
        (u < v ↔ a.instant.Earlier b.instant)) ↔ a.instant.InOrder b.instant) ∧
      ∀ indexId pk (lower upper : Option (InstantBound column.kind)) (a : StoredInstant column.kind),
        (∀ b, b ∈ lower ∨ b ∈ upper →
          a.instant.InOrder b.1.instant ∧ b.1.instant.InOrder a.instant) →
        (ReadsInstant column indexId pk lower upper a ↔ a.instant.Within lower upper) := by
  refine ⟨fun a b => ?_, fun indexId pk lower upper a h => readsInstant_iff indexId pk h⟩
  rw [keyComponent_instant, keyComponent_instant, ← keyLt_iff_earlier, ← word_below_iff,
    ← word_lt_iff]
  constructor
  · rintro ⟨u, v, hu, hv, h⟩
    cases hu
    cases hv
    exact h
  · intro h
    exact ⟨_, _, rfl, rfl, h⟩

namespace Fixed

def dateColumn : InstantColumn := ⟨.date, ascii "DATE", by decide +kernel⟩

/-- 2024-02-29 and `infinity`. -/
def leapDay : StoredInstant .date := ⟨.finite 19782, by decide⟩
def infiniteDay : StoredInstant .date := ⟨.infinity, trivial⟩

end Fixed

/-- 2024-02-29 is earlier than `infinity`, and its key is above. -/
theorem infinity_sorts_below_dates :
    letI := Fixed.zones
    Fixed.leapDay.instant.Earlier Fixed.infiniteDay.instant ∧
      ∃ u v, keyComponent Fixed.leapDay.value Fixed.dateColumn.dataType = some u ∧
        keyComponent Fixed.infiniteDay.value Fixed.dateColumn.dataType = some v ∧ v < u := by
  let := Fixed.zones
  refine ⟨trivial, _, _, keyComponent_instant Fixed.dateColumn Fixed.leapDay,
    keyComponent_instant Fixed.dateColumn Fixed.infiniteDay, ?_⟩
  decide +kernel

end NodusDb.Sql
