import Mathlib.Data.Int.Basic
import Mathlib.Data.List.Basic

/-!
# Numbers in strings

`lib/toolbox/strint.c`. A C string is the list of its characters; its end stands for the NUL.
-/

namespace NikitaFirmware.Toolbox

open List
inductive StrintParseError
  | signError
  | absentError
  | overflowError
  deriving DecidableEq

/-- The white space that `strint` skips. -/
def isSpace (c : Char) : Bool := ('\t' ≤ c && c ≤ '\r') || c == ' '

def readSign : List Char → Bool × List Char
  | '-' :: s => (true, s)
  | '+' :: s => (false, s)
  | s => (false, s)

/-- The base that the first characters stand for, and what follows them. -/
def inferBase : List Char → Nat × List Char
  | '0' :: c :: s =>
    if c = 'x' ∨ c = 'X' then (16, s)
    else if c = 'b' ∨ c = 'B' then (2, s)
    else (8, c :: s)
  | ['0'] => (8, [])
  | s => (10, s)

def digitValue (c : Char) : Option Nat :=
  if '0' ≤ c ∧ c ≤ '9' then some (c.toNat - '0'.toNat)
  else if 'A' ≤ c ∧ c ≤ 'Z' then some (c.toNat - 'A'.toNat + 10)
  else if 'a' ≤ c ∧ c ≤ 'z' then some (c.toNat - 'a'.toNat + 10)
  else none

/-- The digits of a number up to `limit`: the number, how many digits there were, the rest. -/
def readDigits (base limit : Nat) :
    Nat → Nat → List Char → Except StrintParseError (Nat × Nat × List Char)
  | result, readTotal, [] => .ok (result, readTotal, [])
  | result, readTotal, c :: s =>
    match digitValue c with
    | none => .ok (result, readTotal, c :: s)
    | some digit =>
      if base ≤ digit then .ok (result, readTotal, c :: s)
      else if limit / base < result then .error .overflowError
      else if limit - digit < result * base then .error .overflowError
      else readDigits base limit (result * base + digit) (readTotal + 1) s

def strintToUint64Internal (str : List Char) (base maxAbsNegative maxPositive : Nat) :
    Except StrintParseError (Nat × Bool × List Char) := do
  let (negative, s) := readSign (str.dropWhile isSpace)
  if s.head? = some '+' ∨ s.head? = some '-' then throw .signError
  if maxAbsNegative = 0 ∧ negative then throw .signError
  let (inferredBase, s) := inferBase s
  let base := if base = 0 then inferredBase else base
  let (result, readTotal, s) ← readDigits base (if negative then maxAbsNegative else maxPositive) 0 0 s
  -- a single zero has been taken for the mark of base 8
  if readTotal = 0 ∧ inferredBase ≠ 8 then throw .absentError
  return (result, negative, s)

def int32Max : Nat := 0x7FFFFFFF

def strintToInt32 (str : List Char) (base : Nat) : Except StrintParseError (Int × List Char) := do
  let (absolute, negative, s) ← strintToUint64Internal str base (int32Max + 1) int32Max
  return (if negative then -absolute else absolute, s)

def printUint32 (n : Nat) : List Char := Nat.toDigits 10 n

def printInt32 (v : Int) : List Char :=
  if v < 0 then '-' :: Nat.toDigits 10 v.natAbs else Nat.toDigits 10 v.natAbs

variable {c : Char} {s rest : List Char} {limit n : Nat} {v : Int}

theorem digitValue_of_isDigit (h : c.isDigit = true) :
    digitValue c = some (c.toNat - '0'.toNat) ∧ c.toNat - '0'.toNat < 10 := by
  rw [Char.isDigit_iff_toNat] at h
  obtain ⟨hlow, hhigh⟩ := h
  have hrange : '0' ≤ c ∧ c ≤ '9' := ⟨hlow, hhigh⟩
  have hnine : '9'.toNat = '0'.toNat + 9 := rfl
  rw [digitValue, if_pos hrange]
  exact ⟨rfl, by omega⟩

/-- A number ends before what follows it. -/
def Stops (rest : List Char) : Prop := ∀ c ∈ rest.head?, digitValue c = none

theorem readDigits_of_stops (h : Stops rest) (result readTotal : Nat) :
    readDigits 10 limit result readTotal rest = .ok (result, readTotal, rest) := by
  cases rest with
  | nil => rfl
  | cons c rest => rw [readDigits, h c rfl]

theorem le_ofDigitChars (ds : List Char) (n : Nat) : n ≤ Nat.ofDigitChars 10 ds n := by
  induction ds generalizing n with
  | nil => rw [Nat.ofDigitChars_nil]
  | cons c ds ih =>
    rw [Nat.ofDigitChars_cons]
    exact Nat.le_trans (by omega) (ih _)

theorem readDigits_append (ds : List Char) (hds : ∀ c ∈ ds, c.isDigit = true) (h : Stops rest)
    (result readTotal : Nat) (hlim : Nat.ofDigitChars 10 ds result ≤ limit) :
    readDigits 10 limit result readTotal (ds ++ rest) =
      .ok (Nat.ofDigitChars 10 ds result, readTotal + ds.length, rest) := by
  induction ds generalizing result readTotal with
  | nil =>
    rw [nil_append, Nat.ofDigitChars_nil]
    exact readDigits_of_stops h result readTotal
  | cons c ds ih =>
    obtain ⟨hc, hds⟩ := forall_mem_cons.mp hds
    obtain ⟨hvalue, hlt⟩ := digitValue_of_isDigit hc
    rw [Nat.ofDigitChars_cons, Nat.mul_comm] at hlim ⊢
    have hle := Nat.le_trans (le_ofDigitChars ds _) hlim
    rw [cons_append, readDigits, hvalue]
    simp only [if_neg (show ¬ 10 ≤ c.toNat - '0'.toNat by omega),
      if_neg (show ¬ limit / 10 < result by omega),
      if_neg (show ¬ limit - (c.toNat - '0'.toNat) < result * 10 by omega)]
    rw [ih hds _ _ hlim, length_cons]
    congr 3
    omega

theorem digitChar_ne_zero : ∀ n < 10, 0 < n → Nat.digitChar n ≠ '0' := by decide

theorem toDigits_head (hn : 0 < n) : ∃ c s, Nat.toDigits 10 n = c :: s ∧ c ≠ '0' := by
  induction n using Nat.strongRecOn with
  | ind n ih =>
    by_cases hlt : n < 10
    · refine ⟨Nat.digitChar n, [], Nat.toDigits_of_lt_base hlt, ?_⟩
      exact digitChar_ne_zero n hlt hn
    · obtain ⟨c, s, heq, hc⟩ := ih (n / 10) (by omega) (by omega)
      refine ⟨c, s ++ Nat.toDigits 10 (n % 10), ?_, hc⟩
      rw [← cons_append, ← heq, Nat.toDigits_append_toDigits (by omega) (by omega) (by omega)]
      congr 1
      omega

theorem inferBase_of_ne (h : c ≠ '0') : inferBase (c :: s) = (10, c :: s) := by
  unfold inferBase
  split
  · rename_i heq
    exact absurd (List.cons.inj heq).1 h
  · rename_i heq
    exact absurd (List.cons.inj heq).1 h
  · rfl

theorem readDigits_toDigits (h : Stops rest) (hlim : n ≤ limit) :
    readDigits 10 limit 0 0 (Nat.toDigits 10 n ++ rest) =
      .ok (n, (Nat.toDigits 10 n).length, rest) := by
  rw [readDigits_append _ (fun c hc => Nat.isDigit_of_mem_toDigits (by omega) (by omega) hc) h 0 0
    (by rwa [Nat.ofDigitChars_ten_toDigits]), Nat.ofDigitChars_ten_toDigits, Nat.zero_add]

theorem readSign_of_ne (hplus : c ≠ '+') (hminus : c ≠ '-') : readSign (c :: s) = (false, c :: s) := by
  unfold readSign
  split
  · rename_i heq
    exact absurd (List.cons.inj heq).1 hminus
  · rename_i heq
    exact absurd (List.cons.inj heq).1 hplus
  · rfl

theorem ne_of_isDigit (h : c.isDigit = true) : isSpace c = false ∧ c ≠ '+' ∧ c ≠ '-' := by
  rw [Char.isDigit_iff_toNat] at h
  have hspace : isSpace c = false := by
    by_contra hs
    simp only [isSpace, Bool.not_eq_false, Bool.or_eq_true, Bool.and_eq_true, decide_eq_true_eq,
      beq_iff_eq] at hs
    have hzero : '\r'.toNat < '0'.toNat := by decide
    rcases hs with ⟨-, hs⟩ | rfl
    · have hs' : c.toNat ≤ '\r'.toNat := hs
      omega
    · exact absurd h (by decide)
  refine ⟨hspace, ?_, ?_⟩ <;> rintro rfl <;> exact absurd h (by decide)

theorem strintToUint64Internal_of_digits (maxNegative maxPositive : Nat) (negative : Bool)
    (hn : 0 < n) (hneg : negative = true → maxNegative ≠ 0)
    (hlim : n ≤ if negative then maxNegative else maxPositive) (h : Stops rest) :
    strintToUint64Internal
      (' ' :: ((if negative then ['-'] else []) ++ (Nat.toDigits 10 n ++ rest))) 10
      maxNegative maxPositive = .ok (n, negative, rest) := by
  obtain ⟨c, s, heq, hc⟩ := toDigits_head hn
  have hdigit : c.isDigit = true :=
    Nat.isDigit_of_mem_toDigits (b := 10) (n := n) (by omega) (by omega)
      (heq ▸ mem_cons_self)
  obtain ⟨hspace, hplus, hminus⟩ := ne_of_isDigit hdigit
  have hread := readDigits_toDigits h hlim
  rw [heq, cons_append] at hread ⊢
  have hskip : (' ' :: ((if negative then ['-'] else []) ++ c :: (s ++ rest))).dropWhile isSpace =
      (if negative then ['-'] else []) ++ c :: (s ++ rest) := by
    rw [dropWhile_cons_of_pos (by decide)]
    cases negative with
    | true => exact dropWhile_cons_of_neg (by decide)
    | false => exact dropWhile_cons_of_neg (by simp [hspace])
  have hsign : readSign ((if negative then ['-'] else []) ++ c :: (s ++ rest)) =
      (negative, c :: (s ++ rest)) := by
    cases negative with
    | true => rfl
    | false => exact readSign_of_ne hplus hminus
  rw [strintToUint64Internal, hskip, hsign]
  have hguard : ¬ (maxNegative = 0 ∧ negative = true) := fun hg => hneg hg.2 hg.1
  simp only [List.head?_cons, Option.some.injEq, hplus, hminus, or_self, if_false, hguard,
    inferBase_of_ne hc, Nat.succ_ne_zero, hread]
  rfl

theorem strintToInt32_printInt32 (hv : v ≠ 0) (hmax : v.natAbs ≤ int32Max) (h : Stops rest) :
    strintToInt32 (' ' :: (printInt32 v ++ rest)) 10 = .ok (v, rest) := by
  have hread := strintToUint64Internal_of_digits (n := v.natAbs) (int32Max + 1) int32Max
    (decide (v < 0)) (by omega) (by omega) (by split <;> omega) h
  have hprint : printInt32 v =
      (if decide (v < 0) then ['-'] else []) ++ Nat.toDigits 10 v.natAbs := by
    by_cases hneg : v < 0 <;> simp [printInt32, hneg]
  rw [strintToInt32, hprint, append_assoc, hread]
  refine congrArg Except.ok (Prod.ext ?_ rfl)
  by_cases hneg : v < 0
  · simp only [hneg, decide_true, if_true]
    omega
  · simp only [hneg, decide_false, Bool.false_eq_true, if_false]
    omega

end NikitaFirmware.Toolbox
