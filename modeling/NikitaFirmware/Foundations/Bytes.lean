import Mathlib.Data.List.DropRight
import Mathlib.Data.List.Infix

/-!
# Byte strings

Byte strings as lists, the bytes of an ASCII literal, decimal numerals, the prefix of a
buffer that a NUL-terminated reading sees, and the search for a substring.
-/

namespace Foundations

open List UInt32
abbrev Bytes := List UInt8

/-- The bytes of a literal whose characters are all below 256. -/
def ascii (s : String) : Bytes := s.toList.map fun c => UInt8.ofNat c.toNat

def decimal (n : Nat) : Bytes := ascii (Nat.repr n)

/-- What a reader of NUL-terminated strings sees of a buffer. -/
def cstr (b : Bytes) : Bytes := b.takeWhile (· ≠ 0)

/-- The suffix that starts with the first occurrence of `needle`. -/
def strstr (needle : Bytes) : Bytes → Option Bytes
  | [] => if needle = [] then some [] else none
  | b :: bs => if needle.isPrefixOf (b :: bs) then some (b :: bs) else strstr needle bs

theorem cstr_eq_self {b : Bytes} (h : (0 : UInt8) ∉ b) : cstr b = b := by
  refine takeWhile_eq_self_iff.mpr fun x hx => ?_
  exact decide_eq_true fun h0 => h (h0 ▸ hx)

def isDigit (b : UInt8) : Bool := 48 ≤ b && b ≤ 57

/-- The number that a sequence of digits stands for, after the digits of `v`. -/
def digitsNat (v : Nat) (ds : Bytes) : Nat := ds.foldl (fun v b => v * 10 + (b.toNat - 48)) v

/-- The same in a 32-bit accumulator. -/
def digitsValue (v : UInt32) (ds : Bytes) : UInt32 :=
  ds.foldl (fun v b => v * 10 + (b - 48).toUInt32) v

theorem isDigit_ofNat {c : Char} (h : c.isDigit) : isDigit (UInt8.ofNat c.toNat) := by
  have hc : 48 ≤ c.toNat ∧ c.toNat ≤ 57 := by
    simpa [Char.isDigit, le_iff_toNat_le] using h
  simp only [isDigit, Bool.and_eq_true, decide_eq_true_eq, UInt8.le_iff_toNat_le]
  constructor <;> simp [UInt8.toNat_ofNat'] <;> omega

theorem isDigit_of_mem_decimal {n : Nat} {b : UInt8} (h : b ∈ decimal n) : isDigit b := by
  obtain ⟨c, hc, rfl⟩ := mem_map.mp h
  rw [Nat.toList_repr] at hc
  exact isDigit_ofNat (Nat.isDigit_of_mem_toDigits (by omega) (by omega) hc)

theorem decimal_ne_nil (n : Nat) : decimal n ≠ [] := by
  simp [decimal, ascii]

theorem digitsNat_ascii (cs : List Char) (h : ∀ c ∈ cs, c.isDigit) (v : Nat) :
    digitsNat v (cs.map fun c => UInt8.ofNat c.toNat) = Nat.ofDigitChars 10 cs v := by
  induction cs generalizing v with
  | nil => simp [digitsNat]
  | cons c cs ih =>
    have hc : 48 ≤ c.toNat ∧ c.toNat ≤ 57 := by
      simpa [Char.isDigit, le_iff_toNat_le] using h c (by simp)
    have hdigit : v * 10 + ((UInt8.ofNat c.toNat).toNat - 48) = 10 * v + (c.toNat - 48) := by
      rw [UInt8.toNat_ofNat', Nat.mod_eq_of_lt (by omega)]
      omega
    rw [map_cons, digitsNat, foldl_cons, hdigit, Nat.ofDigitChars_cons]
    exact ih (fun d hd => h d (mem_cons_of_mem c hd)) _

theorem digitsNat_decimal (n : Nat) : digitsNat 0 (decimal n) = n := by
  have h := digitsNat_ascii (Nat.toDigits 10 n)
    (fun c hc => Nat.isDigit_of_mem_toDigits (by omega) (by omega) hc) 0
  rw [Nat.ofDigitChars_ten_toDigits] at h
  rwa [decimal, ascii, Nat.toList_repr]

theorem digit_toUInt32 {b : UInt8} (h : isDigit b) : (b - 48).toUInt32 = ofNat (b.toNat - 48) := by
  have hb : 48 ≤ b ∧ b ≤ 57 := by simpa [isDigit] using h
  apply UInt32.toNat_inj.mp
  rw [UInt8.toNat_toUInt32, UInt8.toNat_sub_of_le _ _ hb.1, UInt32.toNat_ofNat']
  have := b.toNat_lt
  exact (Nat.mod_eq_of_lt (by omega)).symm

theorem digitsValue_eq (ds : Bytes) (h : ∀ b ∈ ds, isDigit b) (v : Nat) :
    digitsValue (ofNat v) ds = ofNat (digitsNat v ds) := by
  induction ds generalizing v with
  | nil => rfl
  | cons b ds ih =>
    have hstep : ofNat v * 10 + (b - 48).toUInt32 = ofNat (v * 10 + (b.toNat - 48)) := by
      rw [digit_toUInt32 (h b (by simp)), ofNat_add, ofNat_mul]
      rfl
    rw [digitsValue, foldl_cons, hstep, digitsNat, foldl_cons]
    exact ih (fun d hd => h d (mem_cons_of_mem b hd)) _

theorem digitsValue_decimal (n : Nat) : digitsValue 0 (decimal n) = ofNat n := by
  have h := digitsValue_eq (decimal n) (fun b => isDigit_of_mem_decimal) 0
  rw [digitsNat_decimal] at h
  exact h

theorem takeWhile_append_of_all {p : UInt8 → Bool} {l r : Bytes} (hl : ∀ b ∈ l, p b)
    (hr : ∀ b, r.head? = some b → p b = false) : (l ++ r).takeWhile p = l := by
  rw [takeWhile_append_of_pos hl]
  cases r with
  | nil => simp
  | cons b r => simp [hr b rfl]

theorem dropWhile_append_of_all {p : UInt8 → Bool} {l r : Bytes} (hl : ∀ b ∈ l, p b)
    (hr : ∀ b, r.head? = some b → p b = false) : (l ++ r).dropWhile p = r := by
  rw [dropWhile_append_of_pos hl]
  cases r with
  | nil => rfl
  | cons b r => exact dropWhile_cons_of_neg (by simp [hr b rfl])

section Substrings

theorem strstr_isSome_iff {needle hay : Bytes} : (strstr needle hay).isSome ↔ needle <:+: hay := by
  induction hay with
  | nil =>
    unfold strstr
    split <;> next h => simp [h]
  | cons b bs ih =>
    unfold strstr
    split
    · next h => simpa using (List.isPrefixOf_iff_prefix.mp h).isInfix
    · next h =>
      rw [ih]
      constructor
      · exact fun hin => infix_cons hin
      · intro hin
        rcases infix_cons_iff.mp hin with hpre | hin
        · exact absurd (List.isPrefixOf_iff_prefix.mpr hpre) h
        · exact hin

theorem prefix_append_cons_iff {needle a b : Bytes} {x : UInt8} (hx : x ∉ needle) :
    needle <+: a ++ x :: b ↔ needle <+: a := by
  induction a generalizing needle with
  | nil =>
    cases needle with
    | nil => simp
    | cons z zs =>
      rw [nil_append, cons_prefix_cons]
      have hne : z ≠ x := fun h => hx (h ▸ mem_cons_self)
      simp [hne]
  | cons y ys ih =>
    cases needle with
    | nil => simp
    | cons z zs =>
      rw [cons_append, cons_prefix_cons, cons_prefix_cons, ih fun h => hx (mem_cons_of_mem z h)]

theorem infix_append_cons_iff {needle a b : Bytes} {x : UInt8} (hx : x ∉ needle) :
    needle <:+: a ++ x :: b ↔ needle <:+: a ∨ needle <:+: b := by
  induction a with
  | nil =>
    rw [nil_append, infix_cons_iff, infix_nil]
    constructor
    · rintro (hpre | hin)
      · cases needle with
        | nil => exact .inl rfl
        | cons y ys =>
          obtain rfl := (cons_prefix_cons.mp hpre).1
          exact absurd mem_cons_self hx
      · exact .inr hin
    · rintro (rfl | hin)
      · exact .inl nil_prefix
      · exact .inr hin
  | cons y ys ih =>
    rw [cons_append, infix_cons_iff, ih, infix_cons_iff, or_assoc]
    exact or_congr_left (prefix_append_cons_iff (a := y :: ys) hx)

theorem strstr_append_cons {needle a b : Bytes} {x : UInt8} (hx : x ∉ needle)
    (ha : ¬ needle <:+: a) (hne : needle ≠ []) : strstr needle (a ++ x :: b) = strstr needle b := by
  have hnot {c : Bytes} (hc : ¬ needle <:+: c) : ¬ needle.isPrefixOf (c ++ x :: b) := by
    intro hpre
    exact hc ((prefix_append_cons_iff hx).mp (List.isPrefixOf_iff_prefix.mp hpre)).isInfix
  induction a with
  | nil =>
    rw [nil_append, strstr, if_neg]
    exact hnot (c := []) (by simpa using hne)
  | cons y ys ih =>
    rw [cons_append, strstr, if_neg]
    · exact ih fun hin => ha (infix_cons hin)
    · exact hnot (c := y :: ys) ha

theorem strstr_append_self (needle b : Bytes) (hne : needle ≠ []) :
    strstr needle (needle ++ b) = some (needle ++ b) := by
  obtain ⟨y, ys, rfl⟩ := exists_cons_of_ne_nil hne
  rw [cons_append, strstr, if_pos]
  rw [List.isPrefixOf_iff_prefix, ← cons_append]
  exact prefix_append _ _

theorem strstr_append {needle a t b : Bytes} (h : strstr needle a = some t) :
    strstr needle (a ++ b) = some (t ++ b) := by
  induction a with
  | nil =>
    rw [strstr] at h
    split at h
    case isTrue hnil =>
      obtain rfl := Option.some.inj h
      rw [hnil, nil_append]
      cases b <;> rfl
    case isFalse => cases h
  | cons x xs ih =>
    rw [strstr] at h
    rw [cons_append, strstr]
    split at h
    case isTrue hpre =>
      obtain rfl := Option.some.inj h
      have hpre' := (List.isPrefixOf_iff_prefix.mp hpre).trans (prefix_append (x :: xs) b)
      exact if_pos (List.isPrefixOf_iff_prefix.mpr hpre')
    case isFalse hnot =>
      -- the needle stands further right, so a prefix across the end of `a` would be too long
      have hin : needle <:+: xs := strstr_isSome_iff.mp (h ▸ rfl)
      have hlen := hin.length_le
      rw [if_neg, ih h]
      intro hpre
      refine hnot (List.isPrefixOf_iff_prefix.mpr ?_)
      exact prefix_of_prefix_length_le (List.isPrefixOf_iff_prefix.mp hpre)
        (prefix_append (x :: xs) b) (by rw [length_cons]; omega)

theorem not_infix_of_mem {needle hay : Bytes} {x : UInt8} (hx : x ∈ needle) (hhay : x ∉ hay) :
    ¬ needle <:+: hay := fun h => hhay (h.subset hx)

end Substrings

end Foundations
