import NikitaFirmware.Foundations.Digits
import NikitaFirmware.Toolbox.Strint

/-!
# The six integer types of `strint`

`lib/toolbox/strint.c` in the arithmetic of its machine words. `strint_to_uint64_internal` computes
in 64 bits; the functions that `STRINT_MONO` defines give it the limits of their type and convert
the result. Where nothing wraps around, the words are those of `Toolbox.strintToUint64Internal`,
which computes with numbers; the digits of a number are described there.
-/

namespace NikitaFirmware.Toolbox
open Foundations List UInt64

namespace Strint

def readDigits (base : UInt8) (limit : UInt64) :
    UInt64 → Nat → List Char → Except StrintParseError (UInt64 × Nat × List Char)
  | result, readTotal, [] => .ok (result, readTotal, [])
  | result, readTotal, c :: s =>
    match digitValue c with
    | none => .ok (result, readTotal, c :: s)
    | some digit =>
      if base.toNat ≤ digit then .ok (result, readTotal, c :: s)
      else if limit / base.toUInt64 < result then .error .overflowError
      else if limit - ofNat digit < result * base.toUInt64 then .error .overflowError
      else readDigits base limit (result * base.toUInt64 + ofNat digit) (readTotal + 1) s

/-- `strint_to_uint64_internal`: the absolute value, the sign, and what follows the number. -/
def toUint64Internal (str : List Char) (base : UInt8) (maxAbsNegative maxPositive : UInt64) :
    Except StrintParseError (UInt64 × Bool × List Char) :=
  let signed := readSign (str.dropWhile isSpace)
  if signed.2.head? = some '+' ∨ signed.2.head? = some '-' then .error .signError
  else if maxAbsNegative = 0 ∧ signed.1 = true then .error .signError
  else
    let inferred := inferBase signed.2
    let base := if base = 0 then UInt8.ofNat inferred.1 else base
    match readDigits base (if signed.1 then maxAbsNegative else maxPositive) 0 0 inferred.2 with
    | .error e => .error e
    | .ok (result, readTotal, s) =>
      if readTotal = 0 ∧ inferred.1 ≠ 8 then .error .absentError else .ok (result, signed.1, s)

/-- What a call leaves: the error, `*end` and `*out`, the latter two where they are not `NULL`. -/
abbrev Outcome (α : Type) := Except StrintParseError Unit × Option (List Char) × Option α

def mono {α : Type} [Neg α] (convert : UInt64 → α) (negAbsLimit posLimit : UInt64)
    (str : List Char) (endPtr : Option (List Char)) (out : Option α) (base : UInt8) : Outcome α :=
  match toUint64Internal str base negAbsLimit posLimit with
  | .error e => (.error e, endPtr, out)
  | .ok (absolute, negative, s) =>
    (.ok (), endPtr.map fun _ => s,
      out.map fun _ => if negative then -convert absolute else convert absolute)

def toUint64 := mono (α := UInt64) id 0 0xFFFFFFFFFFFFFFFF

def toInt64 := mono UInt64.toInt64 0x8000000000000000 0x7FFFFFFFFFFFFFFF

def toUint32 := mono toUInt32 0 0xFFFFFFFF

def toInt32 := mono (fun n => n.toUInt32.toInt32) 0x80000000 0x7FFFFFFF

def toUint16 := mono toUInt16 0 0xFFFF

def toInt16 := mono (fun n => n.toUInt16.toInt16) 0x8000 0x7FFF

/-- No operation of the loop wraps around: neither `result *= base`, nor `limit - digit_value`, nor
`result += digit_value`. -/
def Exact (base : UInt8) (limit : UInt64) : UInt64 → List Char → Prop
  | _, [] => True
  | result, c :: s =>
    match digitValue c with
    | none => True
    | some digit =>
      base.toNat ≤ digit ∨ limit / base.toUInt64 < result ∨
        result.toNat * base.toNat < 18446744073709551616 ∧ digit ≤ limit.toNat ∧
          (limit - ofNat digit < result * base.toUInt64 ∨
            (result * base.toUInt64).toNat + digit < 18446744073709551616 ∧
              Exact base limit (result * base.toUInt64 + ofNat digit) s)

def IsDigit (base : Nat) (c : Char) : Prop := ∃ digit, digitValue c = some digit ∧ digit < base

def Ends (base : Nat) (rest : List Char) : Prop := ∀ c ∈ rest.head?, ¬ IsDigit base c

def value (base : Nat) (ds : List Char) : Nat := Digits.value base (ds.filterMap digitValue)

/-- The marks of the bases 16 and 2 as `strncasecmp` finds them. -/
def HasPrefix (s : List Char) : Prop :=
  s.take 2 ∈ [['0', 'x'], ['0', 'X'], ['0', 'b'], ['0', 'B']]

variable {base limit : Nat} {ds rest s : List Char} {c : Char}

theorem readDigits_of_ends (h : Ends base rest) (result readTotal : Nat) :
    Toolbox.readDigits base limit result readTotal rest = .ok (result, readTotal, rest) := by
  cases rest with
  | nil => rfl
  | cons c rest =>
    rw [Toolbox.readDigits]
    cases hc : digitValue c with
    | none => rfl
    | some digit =>
      have hle : base ≤ digit := Nat.le_of_not_lt fun hlt => h c rfl ⟨digit, hc, hlt⟩
      exact if_pos hle

theorem le_foldl (hbase : 0 < base) (digits : List Nat) (result : Nat) :
    result ≤ digits.foldl (fun v d => v * base + d) result := by
  induction digits generalizing result with
  | nil => exact le_rfl
  | cons d digits ih =>
    calc result ≤ result * base := Nat.le_mul_of_pos_right result hbase
      _ ≤ result * base + d := Nat.le_add_right _ d
      _ ≤ _ := ih _

theorem readDigits_append (hbase : 0 < base) (hlimit : base ≤ limit) (hds : ∀ c ∈ ds, IsDigit base c)
    (h : Ends base rest) (result readTotal : Nat) (hresult : result ≤ limit) :
    Toolbox.readDigits base limit result readTotal (ds ++ rest) =
      if (ds.filterMap digitValue).foldl (fun v d => v * base + d) result ≤ limit then
        .ok ((ds.filterMap digitValue).foldl (fun v d => v * base + d) result,
          readTotal + ds.length, rest)
      else .error .overflowError := by
  induction ds generalizing result readTotal with
  | nil => exact (readDigits_of_ends h result readTotal).trans (if_pos hresult).symm
  | cons c ds ih =>
    obtain ⟨⟨digit, hc, hlt⟩, hds⟩ := forall_mem_cons.mp hds
    have hgrow := le_foldl hbase (ds.filterMap digitValue) (result * base + digit)
    rw [cons_append, Toolbox.readDigits, hc, filterMap_cons_some hc, foldl_cons]
    simp only [if_neg (Nat.not_le.mpr hlt)]
    by_cases hmul : limit / base < result
    · have hover : limit < result * base := (Nat.div_lt_iff_lt_mul hbase).mp hmul
      rw [if_pos hmul, if_neg (by omega)]
    · rw [if_neg hmul]
      have hfits : result * base ≤ limit := (Nat.le_div_iff_mul_le hbase).mp (Nat.le_of_not_lt hmul)
      by_cases hadd : limit - digit < result * base
      · rw [if_pos hadd, if_neg (by omega)]
      · rw [if_neg hadd]
        rw [ih hds _ _ (by omega), length_cons, Nat.add_assoc, Nat.add_comm 1]

structure Fits (base : UInt8) (limit : UInt64) : Prop where
  pos : 0 < base.toNat
  le : base.toNat ≤ limit.toNat

theorem toNat_div_base (base : UInt8) (limit : UInt64) :
    (limit / base.toUInt64).toNat = limit.toNat / base.toNat := by
  rw [UInt64.toNat_div, UInt8.toNat_toUInt64]

theorem toNat_of_checks {base : UInt8} {limit result : UInt64} {digit : Nat} (h : Fits base limit)
    (hdigit : digit < base.toNat) (hmul : ¬ limit / base.toUInt64 < result) :
    result.toNat * base.toNat ≤ limit.toNat ∧
      (result * base.toUInt64).toNat = result.toNat * base.toNat ∧
      (limit - ofNat digit).toNat = limit.toNat - digit := by
  have hlt := limit.toNat_lt
  have hle := h.le
  have hfits : result.toNat * base.toNat ≤ limit.toNat := by
    rw [lt_iff_toNat_lt, toNat_div_base] at hmul
    exact (Nat.le_div_iff_mul_le h.pos).mp (Nat.le_of_not_lt hmul)
  have hword : (ofNat digit).toNat = digit := by
    rw [toNat_ofNat']
    omega
  refine ⟨hfits, ?_, ?_⟩
  · rw [UInt64.toNat_mul, UInt8.toNat_toUInt64]
    omega
  · rw [UInt64.toNat_sub_of_le, hword]
    rw [UInt64.le_iff_toNat_le, hword]
    omega

theorem toNat_add_digit {base : UInt8} {limit result : UInt64} {digit : Nat} (h : Fits base limit)
    (hdigit : digit < base.toNat) (hmul : ¬ limit / base.toUInt64 < result)
    (hadd : ¬ limit - ofNat digit < result * base.toUInt64) :
    (result * base.toUInt64 + UInt64.ofNat digit).toNat = result.toNat * base.toNat + digit := by
  obtain ⟨hfits, hproduct, hroom⟩ := toNat_of_checks h hdigit hmul
  have hlt := limit.toNat_lt
  have hle := h.le
  rw [UInt64.lt_iff_toNat_lt, hproduct, hroom] at hadd
  rw [UInt64.toNat_add, hproduct, UInt64.toNat_ofNat']
  omega

theorem readDigits_eq {base : UInt8} {limit : UInt64} (h : Fits base limit) (result : UInt64)
    (readTotal : Nat) (s : List Char) :
    (readDigits base limit result readTotal s).map (fun read => (read.1.toNat, read.2)) =
      Toolbox.readDigits base.toNat limit.toNat result.toNat readTotal s := by
  induction s generalizing result readTotal with
  | nil => rfl
  | cons c s ih =>
    rw [readDigits, Toolbox.readDigits]
    cases digitValue c with
    | none => rfl
    | some digit =>
      by_cases hdigit : base.toNat ≤ digit
      · simp only [if_pos hdigit]
        rfl
      · by_cases hmul : limit / base.toUInt64 < result
        · have hmul' : limit.toNat / base.toNat < result.toNat := by
            rwa [lt_iff_toNat_lt, toNat_div_base] at hmul
          simp only [if_neg hdigit, if_pos hmul, if_pos hmul']
          rfl
        · have hmul' : ¬ limit.toNat / base.toNat < result.toNat := by
            rwa [lt_iff_toNat_lt, toNat_div_base] at hmul
          obtain ⟨hfits, hproduct, hroom⟩ := toNat_of_checks h (Nat.lt_of_not_le hdigit) hmul
          have hadd : limit - ofNat digit < result * base.toUInt64 ↔
              limit.toNat - digit < result.toNat * base.toNat := by
            rw [lt_iff_toNat_lt, hproduct, hroom]
          by_cases hover : limit - ofNat digit < result * base.toUInt64
          · simp only [if_neg hdigit, if_neg hmul, if_neg hmul', if_pos hover,
              if_pos (hadd.mp hover)]
            rfl
          · have hover' := fun hlt => hover (hadd.mpr hlt)
            simp only [if_neg hdigit, if_neg hmul, if_neg hmul', if_neg hover, if_neg hover']
            rw [ih, toNat_add_digit h (Nat.lt_of_not_le hdigit) hmul hover]

theorem exact_of_fits {base : UInt8} {limit : UInt64} (h : Fits base limit) (result : UInt64)
    (s : List Char) : Exact base limit result s := by
  induction s generalizing result with
  | nil => trivial
  | cons c s ih =>
    rw [Exact]
    cases digitValue c with
    | none => trivial
    | some digit =>
      by_cases hdigit : base.toNat ≤ digit
      · exact .inl hdigit
      · by_cases hmul : limit / base.toUInt64 < result
        · exact .inr (.inl hmul)
        · obtain ⟨hfits, hproduct, hroom⟩ := toNat_of_checks h (Nat.lt_of_not_le hdigit) hmul
          have hlt := limit.toNat_lt
          have hle := h.le
          refine .inr (.inr ⟨by omega, by omega, ?_⟩)
          by_cases hover : limit - ofNat digit < result * base.toUInt64
          · exact .inl hover
          · refine .inr ⟨?_, ih _⟩
            rw [lt_iff_toNat_lt, hroom] at hover
            omega

/-- The limits of a type leave room for any digit, unless the type has no negative numbers. -/
structure Limits (base : UInt8) (negAbsLimit posLimit : UInt64) : Prop where
  positive : Fits base posLimit
  negative : negAbsLimit ≠ 0 → Fits base negAbsLimit

theorem toUint64Internal_eq {base : UInt8} {negAbsLimit posLimit : UInt64}
    (h : Limits base negAbsLimit posLimit) (str : List Char) :
    (toUint64Internal str base negAbsLimit posLimit).map (fun read => (read.1.toNat, read.2)) =
      strintToUint64Internal str base.toNat negAbsLimit.toNat posLimit.toNat := by
  have hzero : negAbsLimit.toNat = 0 ↔ negAbsLimit = 0 := UInt64.toNat_inj (b := 0)
  have hbase : base.toNat ≠ 0 := Nat.ne_of_gt h.positive.pos
  have hbase' : base ≠ 0 := fun heq => hbase (heq ▸ rfl)
  rw [toUint64Internal, strintToUint64Internal]
  generalize readSign (str.dropWhile isSpace) = signed
  obtain ⟨negative, s⟩ := signed
  simp only [hzero, if_neg hbase, if_neg hbase']
  by_cases hsecond : s.head? = some '+' ∨ s.head? = some '-'
  · simp only [if_pos hsecond]
    rfl
  by_cases hsign : negAbsLimit = 0 ∧ negative = true
  · simp only [if_neg hsecond, if_pos hsign]
    rfl
  have hfits : Fits base (if negative then negAbsLimit else posLimit) := by
    cases negative with
    | true => exact h.negative fun hz => hsign ⟨hz, rfl⟩
    | false => exact h.positive
  have hlimit : (if negative then negAbsLimit.toNat else posLimit.toNat) =
      (if negative then negAbsLimit else posLimit).toNat := by
    cases negative <;> rfl
  have hread := readDigits_eq hfits 0 0 (inferBase s).2
  rw [hlimit]
  simp only [if_neg hsecond, if_neg hsign]
  rw [UInt64.toNat_zero] at hread
  rw [← hread]
  cases readDigits base (if negative then negAbsLimit else posLimit) 0 0 (inferBase s).2 with
  | error e => rfl
  | ok read =>
    by_cases habsent : read.2.1 = 0 ∧ (inferBase s).1 ≠ 8
    · simp only [if_pos habsent]
      show _ = if read.2.1 = 0 ∧ (inferBase s).1 ≠ 8 then _ else _
      rw [if_pos habsent]
      rfl
    · simp only [if_neg habsent]
      show _ = if read.2.1 = 0 ∧ (inferBase s).1 ≠ 8 then _ else _
      rw [if_neg habsent]
      rfl

inductive Sign
  | none
  | plus
  | minus
  deriving DecidableEq

def Sign.text : Sign → List Char
  | none => []
  | plus => ['+']
  | minus => ['-']

def Sign.apply (n : Nat) : Sign → Int
  | minus => -n
  | _ => n

theorem zero_le_of_digitValue {digit : Nat} (h : digitValue c = some digit) :
    '0'.toNat ≤ c.toNat := by
  have hupper : '0'.toNat ≤ 'A'.toNat := by decide
  have hlower : '0'.toNat ≤ 'a'.toNat := by decide
  unfold digitValue at h
  split at h
  · next hc => exact hc.1
  split at h
  · next hc => exact Nat.le_trans hupper hc.1
  split at h
  · next hc => exact Nat.le_trans hlower hc.1
  · exact absurd h (by simp)

theorem isDigit_ne (h : IsDigit base c) : isSpace c = false ∧ c ≠ '+' ∧ c ≠ '-' := by
  obtain ⟨digit, hc, -⟩ := h
  have hzero := zero_le_of_digitValue hc
  have hspace : isSpace c = false := by
    by_contra hs
    simp only [isSpace, Bool.not_eq_false, Bool.or_eq_true, Bool.and_eq_true, decide_eq_true_eq,
      beq_iff_eq] at hs
    have hreturn : '\r'.toNat < '0'.toNat := by decide
    rcases hs with ⟨-, hs⟩ | rfl
    · have hs' : c.toNat ≤ '\r'.toNat := hs
      omega
    · exact absurd hzero (by decide)
  refine ⟨hspace, ?_, ?_⟩ <;> rintro rfl <;> exact absurd hzero (by decide)

theorem inferBase_of_not_hasPrefix (h : ¬ HasPrefix (c :: s)) :
    inferBase (c :: s) = if c = '0' then (8, s) else (10, c :: s) := by
  by_cases hc : c = '0'
  · subst hc
    rw [if_pos rfl]
    cases s with
    | nil => rfl
    | cons d s =>
      have hd : ¬ (d = 'x' ∨ d = 'X') ∧ ¬ (d = 'b' ∨ d = 'B') := by
        simpa [HasPrefix, or_assoc, not_or, and_assoc] using h
      rw [inferBase, if_neg hd.1, if_neg hd.2]
  · rw [inferBase_of_ne hc, if_neg hc]

theorem value_zero_cons (base : Nat) (ds : List Char) : value base ('0' :: ds) = value base ds := by
  have hzero : digitValue '0' = some 0 := rfl
  rw [value, filterMap_cons_some hzero, Digits.value, foldl_cons, Nat.zero_mul]
  rfl

theorem readDigits_inferBase (hbase : 2 ≤ base) (hlimit : base ≤ limit) (hne : ds ≠ [])
    (hds : ∀ c ∈ ds, IsDigit base c) (hrest : Ends base rest) (hmark : ¬ HasPrefix (ds ++ rest)) :
    ∃ readTotal, (readTotal = 0 → (inferBase (ds ++ rest)).1 = 8) ∧
      Toolbox.readDigits base limit 0 0 (inferBase (ds ++ rest)).2 =
        if value base ds ≤ limit then .ok (value base ds, readTotal, rest)
        else .error .overflowError := by
  obtain ⟨c, tail, rfl⟩ := exists_cons_of_ne_nil hne
  rw [cons_append] at hmark ⊢
  rw [inferBase_of_not_hasPrefix hmark]
  by_cases hc : c = '0'
  · subst hc
    rw [if_pos rfl, value_zero_cons]
    refine ⟨0 + tail.length, fun _ => rfl, ?_⟩
    exact readDigits_append (by omega) hlimit (forall_mem_cons.mp hds).2 hrest 0 0
      (Nat.zero_le _)
  · rw [if_neg hc]
    refine ⟨0 + (c :: tail).length, fun hzero => absurd hzero (by simp), ?_⟩
    exact readDigits_append (by omega) hlimit hds hrest 0 0 (Nat.zero_le _)

theorem readSign_digits (sign : Sign) (hc : IsDigit base c) :
    readSign ((sign.text ++ c :: s).dropWhile isSpace) = (decide (sign = .minus), c :: s) := by
  obtain ⟨hspace, hplus, hminus⟩ := isDigit_ne hc
  cases sign with
  | none =>
    show readSign ((c :: s).dropWhile isSpace) = _
    rw [dropWhile_cons_of_neg (by simp [hspace]), readSign_of_ne hplus hminus]
    rfl
  | plus => rfl
  | minus => rfl

theorem strintToUint64Internal_digits {negLimit posLimit : Nat} (sign : Sign) (hbase : 2 ≤ base)
    (hneg : sign = .minus → base ≤ negLimit) (hpos : base ≤ posLimit) (hne : ds ≠ [])
    (hds : ∀ c ∈ ds, IsDigit base c) (hrest : Ends base rest) (hmark : ¬ HasPrefix (ds ++ rest)) :
    strintToUint64Internal (sign.text ++ (ds ++ rest)) base negLimit posLimit =
      if value base ds ≤ if sign = .minus then negLimit else posLimit then
        .ok (value base ds, decide (sign = .minus), rest)
      else .error .overflowError := by
  have hlimit : base ≤ if decide (sign = .minus) = true then negLimit else posLimit := by
    cases sign with
    | none => exact hpos
    | plus => exact hpos
    | minus => exact hneg rfl
  obtain ⟨readTotal, htotal, hread⟩ := readDigits_inferBase hbase hlimit hne hds hrest hmark
  obtain ⟨c, tail, rfl⟩ := exists_cons_of_ne_nil hne
  have hc := (forall_mem_cons.mp hds).1
  obtain ⟨-, hplus, hminus⟩ := isDigit_ne hc
  have hguard : ¬ (negLimit = 0 ∧ decide (sign = .minus) = true) := fun hg => by
    have := hneg (of_decide_eq_true hg.2)
    omega
  have hbase' : base ≠ 0 := by omega
  rw [cons_append] at hread htotal ⊢
  rw [strintToUint64Internal, readSign_digits sign hc]
  simp only [decide_eq_true_eq] at hguard hread
  simp only [List.head?_cons, Option.some.injEq, hplus, hminus, or_self, if_false,
    if_neg hbase', decide_eq_true_eq, hguard, hread]
  have hpresent : ¬ (readTotal = 0 ∧ (inferBase (c :: (tail ++ rest))).1 ≠ 8) :=
    fun habsent => habsent.2 (htotal habsent.1)
  by_cases hvalue : value base (c :: tail) ≤ if sign = .minus then negLimit else posLimit
  · rw [if_pos hvalue, if_pos hvalue]
    show (if readTotal = 0 ∧ (inferBase (c :: (tail ++ rest))).1 ≠ 8 then _ else _) = _
    rw [if_neg hpresent]
    rfl
  · rw [if_neg hvalue, if_neg hvalue]
    rfl

def signedValue (base : Nat) (sign : Sign) (ds : List Char) : Int := sign.apply (value base ds)

/-- What is asked of a function of `strint` for a type from `low` to `high`, whose elements stand for
integers. -/
structure ParsesExactly {α : Type} (low high : Int) (toInt : α → Int)
    (parse : List Char → Option (List Char) → Option α → UInt8 → Outcome α) : Prop where
  /-- A number of the type is read, and the end is behind its digits. -/
  read : ∀ (base : UInt8) (sign : Sign) (ds rest : List Char) (endPtr : Option (List Char))
    (out : Option α), 2 ≤ base.toNat → base.toNat ≤ 36 → ds ≠ [] →
    (∀ c ∈ ds, IsDigit base.toNat c) → Ends base.toNat rest → ¬ HasPrefix (ds ++ rest) →
    (sign = .minus → low < 0) →
    low ≤ signedValue base.toNat sign ds → signedValue base.toNat sign ds ≤ high →
    ∃ number, toInt number = signedValue base.toNat sign ds ∧
      parse (sign.text ++ (ds ++ rest)) endPtr out base =
        (.ok (), endPtr.map fun _ => rest, out.map fun _ => number)
  /-- A number that does not fit is an overflow. -/
  overflow : ∀ (base : UInt8) (sign : Sign) (ds rest : List Char) (endPtr : Option (List Char))
    (out : Option α), 2 ≤ base.toNat → base.toNat ≤ 36 → ds ≠ [] →
    (∀ c ∈ ds, IsDigit base.toNat c) → Ends base.toNat rest → ¬ HasPrefix (ds ++ rest) →
    (sign = .minus → low < 0) →
    ¬ (low ≤ signedValue base.toNat sign ds ∧ signedValue base.toNat sign ds ≤ high) →
    parse (sign.text ++ (ds ++ rest)) endPtr out base = (.error .overflowError, endPtr, out)
  /-- A type without negative numbers takes no minus. -/
  sign : low = 0 → ∀ (base : UInt8) (ds rest : List Char) (endPtr : Option (List Char))
    (out : Option α), 2 ≤ base.toNat → base.toNat ≤ 36 → ds ≠ [] →
    (∀ c ∈ ds, IsDigit base.toNat c) →
    parse (Sign.minus.text ++ (ds ++ rest)) endPtr out base = (.error .signError, endPtr, out)
  /-- An error leaves the end and the number as they were. -/
  unaltered : ∀ (str : List Char) (endPtr : Option (List Char)) (out : Option α) (base : UInt8)
    (e : StrintParseError), (parse str endPtr out base).1 = .error e →
    (parse str endPtr out base).2 = (endPtr, out)

structure Converts {α : Type} [Neg α] (low high : Int) (toInt : α → Int) (convert : UInt64 → α)
    (negAbsLimit posLimit : UInt64) : Prop where
  low_eq : low = -negAbsLimit.toNat
  high_eq : high = posLimit.toNat
  posLimit_ge : 36 ≤ posLimit.toNat
  negAbsLimit_ge : negAbsLimit = 0 ∨ 36 ≤ negAbsLimit.toNat
  toInt_convert : ∀ n, n ≤ posLimit → toInt (convert n) = n.toNat
  toInt_neg : ∀ n, n ≤ negAbsLimit → toInt (-convert n) = -n.toNat

variable {α : Type} [Neg α] {low high : Int} {toInt : α → Int} {convert : UInt64 → α}
  {negAbsLimit posLimit : UInt64}

theorem Converts.limits (h : Converts low high toInt convert negAbsLimit posLimit) {base : UInt8}
    (hlow : 2 ≤ base.toNat) (hhigh : base.toNat ≤ 36) : Limits base negAbsLimit posLimit where
  positive := ⟨by omega, Nat.le_trans hhigh h.posLimit_ge⟩
  negative := fun hne =>
    ⟨by omega, Nat.le_trans hhigh (h.negAbsLimit_ge.resolve_left hne)⟩

theorem toUint64Internal_digits (h : Converts low high toInt convert negAbsLimit posLimit)
    {base : UInt8} (hlow : 2 ≤ base.toNat) (hhigh : base.toNat ≤ 36) (sign : Sign)
    (hminus : sign = .minus → low < 0) (hne : ds ≠ []) (hds : ∀ c ∈ ds, IsDigit base.toNat c)
    (hrest : Ends base.toNat rest) (hmark : ¬ HasPrefix (ds ++ rest)) :
    (toUint64Internal (sign.text ++ (ds ++ rest)) base negAbsLimit posLimit).map
        (fun read => (read.1.toNat, read.2)) =
      if low ≤ signedValue base.toNat sign ds ∧ signedValue base.toNat sign ds ≤ high then
        .ok (value base.toNat ds, decide (sign = .minus), rest)
      else .error .overflowError := by
  have hlimits := h.limits hlow hhigh
  have hneg : sign = .minus → base.toNat ≤ negAbsLimit.toNat := fun hsign => by
    have hltzero := hminus hsign
    have hne : negAbsLimit ≠ 0 := fun hz => by
      rw [h.low_eq, hz] at hltzero
      exact absurd hltzero (by decide)
    exact (hlimits.negative hne).le
  rw [toUint64Internal_eq hlimits, strintToUint64Internal_digits sign hlow hneg
    hlimits.positive.le hne hds hrest hmark]
  have hiff : (value base.toNat ds ≤ if sign = .minus then negAbsLimit.toNat else posLimit.toNat) ↔
      low ≤ signedValue base.toNat sign ds ∧ signedValue base.toNat sign ds ≤ high := by
    rw [h.low_eq, h.high_eq, signedValue]
    cases sign with
    | none => simp only [Sign.apply, reduceCtorEq, if_false]; omega
    | plus => simp only [Sign.apply, reduceCtorEq, if_false]; omega
    | minus => simp only [Sign.apply, if_true]; omega
  simp only [hiff]

theorem ok_of_map {read : Except StrintParseError (UInt64 × Bool × List Char)} {n : Nat}
    {negative : Bool} {s : List Char}
    (h : read.map (fun read => (read.1.toNat, read.2)) = .ok (n, negative, s)) :
    ∃ absolute, read = .ok (absolute, negative, s) ∧ absolute.toNat = n := by
  cases read with
  | error e => exact absurd h (by simp [Except.map])
  | ok read =>
    obtain ⟨absolute, negative', s'⟩ := read
    simp only [Except.map, Except.ok.injEq, Prod.mk.injEq] at h
    obtain ⟨hn, rfl, rfl⟩ := h
    exact ⟨absolute, rfl, hn⟩

theorem error_of_map {read : Except StrintParseError (UInt64 × Bool × List Char)}
    {e : StrintParseError} (h : read.map (fun read => (read.1.toNat, read.2)) = .error e) :
    read = .error e := by
  cases read with
  | error e' => exact congrArg Except.error (Except.error.inj h)
  | ok read => exact absurd h (by simp [Except.map])

theorem parsesExactly (h : Converts low high toInt convert negAbsLimit posLimit) :
    ParsesExactly low high toInt (mono convert negAbsLimit posLimit) where
  read base sign ds rest endPtr out hlow hhigh hne hds hrest hmark hminus hle hge := by
    have hwords := toUint64Internal_digits h hlow hhigh sign hminus hne hds hrest hmark
    rw [if_pos ⟨hle, hge⟩] at hwords
    obtain ⟨absolute, hread, hvalue⟩ := ok_of_map hwords
    refine ⟨if decide (sign = .minus) then -convert absolute else convert absolute, ?_, ?_⟩
    · rw [h.low_eq] at hle
      rw [h.high_eq] at hge
      unfold signedValue at hle hge ⊢
      cases sign with
      | none =>
        have hfits : absolute ≤ posLimit := le_iff_toNat_le.mpr (hvalue ▸ Int.ofNat_le.mp hge)
        exact (h.toInt_convert absolute hfits).trans (congrArg Int.ofNat hvalue)
      | plus =>
        have hfits : absolute ≤ posLimit := le_iff_toNat_le.mpr (hvalue ▸ Int.ofNat_le.mp hge)
        exact (h.toInt_convert absolute hfits).trans (congrArg Int.ofNat hvalue)
      | minus =>
        have hfits : absolute ≤ negAbsLimit :=
          le_iff_toNat_le.mpr (hvalue ▸ Int.ofNat_le.mp (Int.neg_le_neg_iff.mp hle))
        rw [← hvalue]
        exact h.toInt_neg absolute hfits
    · rw [mono, hread]
  overflow base sign ds rest endPtr out hlow hhigh hne hds hrest hmark hminus hover := by
    have hwords := toUint64Internal_digits h hlow hhigh sign hminus hne hds hrest hmark
    rw [if_neg hover] at hwords
    rw [mono, error_of_map hwords]
  sign hzero base ds rest endPtr out hlow hhigh hne hds := by
    obtain ⟨c, tail, rfl⟩ := exists_cons_of_ne_nil hne
    have hc := (forall_mem_cons.mp hds).1
    have hlimit : negAbsLimit = 0 := by
      rw [← UInt64.toNat_inj, UInt64.toNat_zero]
      have := h.low_eq
      omega
    obtain ⟨-, hplus, hminus⟩ := isDigit_ne hc
    rw [mono, cons_append, toUint64Internal, readSign_digits .minus hc]
    simp only [List.head?_cons, Option.some.injEq, hplus, hminus, or_self, if_false, hlimit,
      decide_true, and_self, if_true]
  unaltered str endPtr out base e he := by
    unfold mono at he ⊢
    cases hread : toUint64Internal str base negAbsLimit posLimit with
    | error e' => rfl
    | ok read =>
      rw [hread] at he
      exact absurd he (by simp)

theorem Converts.signed (m : Nat) (hlow : low = -negAbsLimit.toNat) (hhigh : high = posLimit.toNat)
    (hneg : 2 * negAbsLimit.toNat = m) (hpos : 2 * posLimit.toNat < m)
    (hlimit : 36 ≤ posLimit.toNat) (hle : posLimit ≤ negAbsLimit)
    (hword : ∀ n, toInt (convert n) = (n.toNat : Int).bmod m)
    (hminus : ∀ number, toInt (-number) = (-toInt number).bmod m) :
    Converts low high toInt convert negAbsLimit posLimit where
  low_eq := hlow
  high_eq := hhigh
  posLimit_ge := hlimit
  negAbsLimit_ge := .inr (Nat.le_trans hlimit (le_iff_toNat_le.mp hle))
  toInt_convert n hn := by
    have hn' := le_iff_toNat_le.mp hn
    rw [hword]
    exact Int.bmod_eq_of_le (by omega) (by omega)
  toInt_neg n hn := by
    have hn' := le_iff_toNat_le.mp hn
    rw [hminus, hword, Int.bmod_neg_bmod]
    exact Int.bmod_eq_of_le (by omega) (by omega)

theorem Converts.unsigned (hhigh : high = posLimit.toNat) (hlimit : 36 ≤ posLimit.toNat)
    (hconvert : ∀ n, n ≤ posLimit → toInt (convert n) = n.toNat)
    (hminus : toInt (-convert 0) = 0) :
    Converts 0 high toInt convert 0 posLimit where
  low_eq := rfl
  high_eq := hhigh
  posLimit_ge := hlimit
  negAbsLimit_ge := .inl rfl
  toInt_convert := hconvert
  toInt_neg n hn := by
    rw [UInt64.le_zero_iff.mp hn, hminus]
    rfl

theorem toUint64_exact :
    ParsesExactly 0 18446744073709551615 (fun n : UInt64 => (n.toNat : Int)) toUint64 :=
  parsesExactly (.unsigned rfl (by decide) (fun _ _ => rfl) rfl)

theorem toInt64_exact :
    ParsesExactly (-9223372036854775808) 9223372036854775807 Int64.toInt toInt64 :=
  parsesExactly (.signed 18446744073709551616 rfl rfl (by decide) (by decide)
    (by decide) (by decide) (fun n => BitVec.toInt_eq_toNat_bmod n.toBitVec) Int64.toInt_neg)

theorem toUint32_exact :
    ParsesExactly 0 4294967295 (fun n : UInt32 => (n.toNat : Int)) toUint32 := by
  refine parsesExactly (.unsigned rfl (by decide) (fun n hn => ?_) rfl)
  have hn' : n.toNat ≤ 4294967295 := UInt64.le_iff_toNat_le.mp hn
  show ((n.toUInt32.toNat : Nat) : Int) = n.toNat
  rw [UInt64.toNat_toUInt32]
  omega

theorem toInt32_exact : ParsesExactly (-2147483648) 2147483647 Int32.toInt toInt32 := by
  refine parsesExactly (.signed 4294967296 rfl rfl (by decide) (by decide)
    (by decide) (by decide) (fun n => ?_) Int32.toInt_neg)
  have hword : n.toUInt32.toInt32.toInt = (n.toUInt32.toNat : Int).bmod 4294967296 :=
    BitVec.toInt_eq_toNat_bmod n.toUInt32.toBitVec
  have hlow : n.toUInt32.toNat = n.toNat % 4294967296 := toNat_toUInt32 n
  rw [hword, hlow, Int.natCast_emod]
  exact Int.emod_bmod _ _

theorem toUint16_exact : ParsesExactly 0 65535 (fun n : UInt16 => (n.toNat : Int)) toUint16 := by
  refine parsesExactly (.unsigned rfl (by decide) (fun n hn => ?_) rfl)
  have hn' : n.toNat ≤ 65535 := le_iff_toNat_le.mp hn
  show ((n.toUInt16.toNat : Nat) : Int) = n.toNat
  rw [toNat_toUInt16]
  omega

theorem toInt16_exact : ParsesExactly (-32768) 32767 Int16.toInt toInt16 := by
  refine parsesExactly (.signed 65536 rfl rfl (by decide) (by decide)
    (by decide) (by decide) (fun n => ?_) Int16.toInt_neg)
  have hword : n.toUInt16.toInt16.toInt = (n.toUInt16.toNat : Int).bmod 65536 :=
    BitVec.toInt_eq_toNat_bmod n.toUInt16.toBitVec
  have hlow : n.toUInt16.toNat = n.toNat % 65536 := toNat_toUInt16 n
  rw [hword, hlow, Int.natCast_emod]
  exact Int.emod_bmod _ _

/-- Every function of `strint` reads the numbers of its type from their digits and reports the
others, and its 64-bit arithmetic does not wrap around, for whatever text and limit. -/
theorem strint_exact :
    ParsesExactly 0 18446744073709551615 (fun n : UInt64 => (n.toNat : Int)) toUint64 ∧
    ParsesExactly (-9223372036854775808) 9223372036854775807 Int64.toInt toInt64 ∧
    ParsesExactly 0 4294967295 (fun n : UInt32 => (n.toNat : Int)) toUint32 ∧
    ParsesExactly (-2147483648) 2147483647 Int32.toInt toInt32 ∧
    ParsesExactly 0 65535 (fun n : UInt16 => (n.toNat : Int)) toUint16 ∧
    ParsesExactly (-32768) 32767 Int16.toInt toInt16 ∧
    ∀ (base : UInt8) (limit : UInt64) (s : List Char), 2 ≤ base.toNat → base.toNat ≤ 36 →
      36 ≤ limit.toNat → Exact base limit 0 s :=
  ⟨toUint64_exact, toInt64_exact, toUint32_exact, toInt32_exact, toUint16_exact, toInt16_exact,
    fun _ _ _ hlow _ hlimit => exact_of_fits ⟨by omega, by omega⟩ _ _⟩

/-- A minus in front of an unsigned number is an error of the sign, not an overflow; and the mark of
base 2 is skipped with base 16 too, where its characters are digits. -/
theorem strint_minus_and_prefix :
    toUint32 ['-', '1'] (some []) (some 7) 10 = (.error .signError, some [], some 7) ∧
      toUint32 ['0', 'b', '1'] (some []) (some 7) 16 = (.ok (), some [], some 1) ∧
      value 16 ['0', 'b', '1'] = 177 := by
  decide

end Strint
end NikitaFirmware.Toolbox
