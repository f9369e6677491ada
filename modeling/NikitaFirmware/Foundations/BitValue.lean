import Mathlib.Data.Nat.Bitwise
import NikitaFirmware.Foundations.Bytes
import Mathlib.Tactic.Ring

/-!
# The bits of an array of bytes

The bit at a position, with the lowest bit of every byte first (`low`) or the highest one
(`high`). Beyond the array all bits are zero. Arrays of one length are equal when their bits are,
and writing a byte changes the bits of this byte only.
-/

namespace Foundations
open List
namespace BitArray

/-- The bit at a position when the lowest bit of a byte comes first. -/
def low (bytes : Bytes) (k : Nat) : Bool := (bytes.getD (k / 8) 0).toNat.testBit (k % 8)

/-- The bit at a position when the highest bit of a byte comes first. -/
def high (bytes : Bytes) (k : Nat) : Bool := (bytes.getD (k / 8) 0).toNat.testBit (7 - k % 8)

variable {bytes other : Bytes} {a b : UInt8} {i k n : Nat}

theorem testBit_of_le (a : UInt8) (h : 8 ≤ k) : a.toNat.testBit k = false :=
  Nat.testBit_lt_two_pow (Nat.lt_of_lt_of_le a.toNat_lt (Nat.pow_le_pow_right (by decide) h))

theorem byte_ext (h : ∀ j < 8, a.toNat.testBit j = b.toNat.testBit j) : a = b := by
  refine UInt8.toNat_inj.mp (Nat.eq_of_testBit_eq fun j => ?_)
  by_cases hj : j < 8
  · exact h j hj
  · rw [testBit_of_le a (Nat.le_of_not_lt hj), testBit_of_le b (Nat.le_of_not_lt hj)]

theorem testBit_ofNat (n k : Nat) :
    (UInt8.ofNat n).toNat.testBit k = (decide (k < 8) && n.testBit k) := by
  rw [UInt8.toNat_ofNat']
  exact Nat.testBit_mod_two_pow n 8 k

theorem testBit_ofNat_of_lt (h : k < 8) : (UInt8.ofNat n).toNat.testBit k = n.testBit k := by
  rw [testBit_ofNat, decide_eq_true h, Bool.true_and]

theorem testBit_or (a b : UInt8) (k : Nat) :
    (a ||| b).toNat.testBit k = (a.toNat.testBit k || b.toNat.testBit k) := by
  rw [UInt8.toNat_or, Nat.testBit_or]

theorem testBit_not (a : UInt8) (h : k < 8) : (~~~a).toNat.testBit k = !a.toNat.testBit k := by
  rw [← UInt8.toNat_toBitVec, UInt8.toBitVec_not, BitVec.testBit_toNat, BitVec.getLsbD_not,
    decide_eq_true h, Bool.true_and, ← UInt8.toNat_toBitVec, BitVec.testBit_toNat]

theorem getD_set (bytes : Bytes) (i : Nat) (b : UInt8) (j : Nat) :
    (bytes.set i b).getD j 0 = if j = i ∧ i < bytes.length then b else bytes.getD j 0 := by
  by_cases hj : j = i
  · subst hj
    by_cases hlt : j < bytes.length
    · rw [if_pos ⟨rfl, hlt⟩, getD_eq_getElem?_getD, List.getElem?_set_self hlt, Option.getD_some]
    · rw [if_neg fun h => hlt h.2, set_eq_of_length_le (Nat.le_of_not_lt hlt)]
  · rw [if_neg fun h => hj h.1, getD_eq_getElem?_getD,
      List.getElem?_set_ne (fun h => hj h.symm), getD_eq_getElem?_getD]

theorem low_set (bytes : Bytes) (i : Nat) (b : UInt8) (k : Nat) : low (bytes.set i b) k =
      if k / 8 = i ∧ i < bytes.length then b.toNat.testBit (k % 8) else low bytes k := by
  rw [low, getD_set, apply_ite UInt8.toNat, apply_ite fun v : Nat => v.testBit (k % 8)]
  rfl

theorem high_set (bytes : Bytes) (i : Nat) (b : UInt8) (k : Nat) : high (bytes.set i b) k =
      if k / 8 = i ∧ i < bytes.length then b.toNat.testBit (7 - k % 8) else high bytes k := by
  rw [high, getD_set, apply_ite UInt8.toNat, apply_ite fun v : Nat => v.testBit (7 - k % 8)]
  rfl

theorem low_byte (bytes : Bytes) (i : Nat) (hk : k < 8) :
    low bytes (8 * i + k) = (bytes.getD i 0).toNat.testBit k := by
  have hdiv : (8 * i + k) / 8 = i := by omega
  have hmod : (8 * i + k) % 8 = k := by omega
  rw [low, hdiv, hmod]

theorem take_ext (hn : n ≤ bytes.length) (hn' : n ≤ other.length)
    (h : ∀ k < 8 * n, low bytes k = low other k) : bytes.take n = other.take n := by
  refine ext_getElem (by rw [length_take, length_take]; omega) fun i hi hi' => ?_
  rw [length_take] at hi hi'
  rw [getElem_take, getElem_take]
  refine byte_ext fun j hj => ?_
  have hbit := h (8 * i + j) (by omega)
  rwa [low_byte _ _ hj, low_byte _ _ hj, getD_eq_getElem _ _ (by omega),
    getD_eq_getElem _ _ (by omega)] at hbit

end BitArray

namespace BitValue

/-- The number with the first `n` of these bits. -/
def value (bit : Nat → Bool) : Nat → Nat
  | 0 => 0
  | n + 1 => 2 * value bit n + (bit n).toNat

variable {bit other : Nat → Bool} {n m k : Nat}

theorem value_zero (bit : Nat → Bool) : value bit 0 = 0 := rfl

theorem value_succ (bit : Nat → Bool) (n : Nat) :
    value bit (n + 1) = 2 * value bit n + (bit n).toNat := rfl

theorem value_lt (bit : Nat → Bool) (n : Nat) : value bit n < 2 ^ n := by
  induction n with
  | zero => exact Nat.one_pos
  | succ n ih =>
    have hbit : (bit n).toNat ≤ 1 := Bool.toNat_le _
    rw [value_succ, Nat.pow_succ]
    omega

theorem value_congr (h : ∀ k < n, bit k = other k) : value bit n = value other n := by
  induction n with
  | zero => rfl
  | succ n ih => rw [value_succ, value_succ, ih fun k hk => h k (by omega), h n (Nat.lt_succ_self n)]

theorem value_add (bit : Nat → Bool) (n m : Nat) :
    value bit (n + m) = value bit n * 2 ^ m + value (fun k => bit (n + k)) m := by
  induction m with
  | zero => rw [Nat.add_zero, Nat.pow_zero, Nat.mul_one, value_zero, Nat.add_zero]
  | succ m ih =>
    rw [← Nat.add_assoc, value_succ, ih, value_succ, Nat.pow_succ]
    ring

theorem testBit_value (bit : Nat → Bool) (n k : Nat) :
    (value bit n).testBit k = (decide (k < n) && bit (n - 1 - k)) := by
  induction n generalizing k with
  | zero => rw [value_zero, Nat.zero_testBit]; rfl
  | succ n ih =>
    have hbit : (bit n).toNat ≤ 1 := Bool.toNat_le _
    cases k with
    | zero =>
      have hlast : n + 1 - 1 - 0 = n := by omega
      rw [Nat.testBit_zero, value_succ, Nat.add_comm, Nat.add_mul_mod_self_left, hlast,
        decide_eq_true (Nat.succ_pos n), Bool.true_and]
      cases bit n <;> rfl
    | succ k =>
      have hhalf : (2 * value bit n + (bit n).toNat) / 2 = value bit n := by omega
      have hindex : n + 1 - 1 - (k + 1) = n - 1 - k := by omega
      have hlt : k + 1 < n + 1 ↔ k < n := by omega
      rw [value_succ, Nat.testBit_succ, hhalf, ih, hindex, decide_eq_decide.mpr hlt]

theorem eq_value {v : Nat} (h : ∀ k, v.testBit k = (decide (k < n) && bit (n - 1 - k))) :
    v = value bit n :=
  Nat.eq_of_testBit_eq fun k => (h k).trans (testBit_value bit n k).symm

theorem value_eq_iff {c : Nat} (hc : c < 2 ^ n) :
    value bit n = c ↔ ∀ k < n, bit k = c.testBit (n - 1 - k) := by
  constructor
  · rintro rfl k hk
    have hindex : n - 1 - (n - 1 - k) = k := by omega
    rw [testBit_value, hindex, decide_eq_true (by omega), Bool.true_and]
  · intro h
    refine (eq_value fun k => ?_).symm
    by_cases hk : k < n
    · have hindex : n - 1 - (n - 1 - k) = k := by omega
      rw [h _ (by omega), hindex, decide_eq_true hk, Bool.true_and]
    · have hle : (2 : Nat) ^ n ≤ 2 ^ k := Nat.pow_le_pow_right (by decide) (Nat.le_of_not_lt hk)
      rw [decide_eq_false hk, Bool.false_and, Nat.testBit_lt_two_pow (Nat.lt_of_lt_of_le hc hle)]

theorem shiftLeft_or_value (bit : Nat → Bool) (n m : Nat) :
    value bit n <<< m ||| value (fun k => bit (n + k)) m = value bit (n + m) := by
  rw [Nat.shiftLeft_eq, Nat.mul_comm, ← Nat.two_pow_add_eq_or_of_lt (value_lt _ m), value_add,
    Nat.mul_comm]

end BitValue
end Foundations
