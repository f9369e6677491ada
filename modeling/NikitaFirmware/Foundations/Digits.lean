import Mathlib.Data.List.Induction
import Mathlib.Tactic.Ring

/-!
# Numerals of a fixed length

The digits of a number to a base, the most significant one first, and the value of digits. The
value of `n` digits of a number is the number modulo the `n`-th power of the base.
-/

namespace Foundations.Digits

open List
/-- The last `n` digits of a number. -/
def digits (b : Nat) : Nat → Nat → List Nat
  | 0, _ => []
  | n + 1, v => digits b n (v / b) ++ [v % b]

def value (b : Nat) (ds : List Nat) : Nat := ds.foldl (fun v d => v * b + d) 0

variable {b n v d : Nat} {ds : List Nat}

@[simp] theorem length_digits (b n v : Nat) : (digits b n v).length = n := by
  induction n generalizing v with
  | zero => rfl
  | succ n ih => rw [digits, length_append, ih, length_singleton]

theorem digits_lt (hb : 0 < b) (n v : Nat) : ∀ d ∈ digits b n v, d < b := by
  induction n generalizing v with
  | zero => exact fun d hd => absurd hd not_mem_nil
  | succ n ih =>
    intro d hd
    rcases mem_append.mp hd with h | h
    · exact ih (v / b) d h
    · rw [mem_singleton.mp h]
      exact Nat.mod_lt v hb

@[simp] theorem value_nil : value b [] = 0 := rfl

theorem value_concat : value b (ds ++ [d]) = value b ds * b + d := by
  rw [value, foldl_append]
  rfl

theorem value_digits (b n v : Nat) : value b (digits b n v) = v % b ^ n := by
  induction n generalizing v with
  | zero => rw [digits, value_nil, Nat.pow_zero, Nat.mod_one]
  | succ n ih =>
    rw [digits, value_concat, ih, Nat.pow_succ, Nat.mul_comm (b ^ n) b, Nat.mod_mul, Nat.mul_comm b,
      Nat.add_comm]

theorem foldl_digits (b n v w : Nat) :
    (digits b n v).foldl (fun w d => w * b + d) w = w * b ^ n + v % b ^ n := by
  induction n generalizing v with
  | zero => rw [digits, foldl_nil, Nat.pow_zero, Nat.mod_one, Nat.mul_one, Nat.add_zero]
  | succ n ih =>
    rw [digits, foldl_append, ih, foldl_cons, foldl_nil, Nat.pow_succ,
      Nat.mul_comm (b ^ n) b, Nat.mod_mul]
    ring

theorem value_lt (ds : List Nat) (h : ∀ d ∈ ds, d < b) : value b ds < b ^ ds.length := by
  induction ds using List.reverseRecOn with
  | nil => exact Nat.one_pos
  | append_singleton ds d ih =>
    obtain ⟨hds, hd⟩ := forall_mem_append.mp h
    have hlt := ih hds
    have hmul : (value b ds + 1) * b ≤ b ^ ds.length * b := Nat.mul_le_mul_right b hlt
    have hdb := hd d (mem_singleton_self d)
    rw [value_concat, length_append, length_singleton, Nat.pow_succ]
    rw [Nat.add_mul, Nat.one_mul] at hmul
    omega

theorem digits_value (ds : List Nat) (h : ∀ d ∈ ds, d < b) : digits b ds.length (value b ds) = ds := by
  induction ds using List.reverseRecOn with
  | nil => rfl
  | append_singleton ds d ih =>
    obtain ⟨hds, hd⟩ := forall_mem_append.mp h
    have hdb := hd d (mem_singleton_self d)
    have hdiv : (value b ds * b + d) / b = value b ds := by
      rw [Nat.add_comm, Nat.add_mul_div_right _ _ (by omega), Nat.div_eq_of_lt hdb, Nat.zero_add]
    have hmod : (value b ds * b + d) % b = d := by
      rw [Nat.add_comm, Nat.add_mul_mod_self_right, Nat.mod_eq_of_lt hdb]
    rw [length_append, length_singleton, digits, value_concat, hdiv, hmod, ih hds]

/-- The number that has the same bits the other way round. -/
def mirror (n v : Nat) : Nat := value 2 (digits 2 n v).reverse

theorem mirror_lt (n v : Nat) : mirror n v < 2 ^ n := by
  have h := value_lt (b := 2) (digits 2 n v).reverse
    fun d hd => digits_lt (by omega) n v d (mem_reverse.mp hd)
  rwa [length_reverse, length_digits] at h

theorem mirror_mirror (h : v < 2 ^ n) : mirror n (mirror n v) = v := by
  have hbits := digits_value (b := 2) (digits 2 n v).reverse
    fun d hd => digits_lt (by omega) n v d (mem_reverse.mp hd)
  rw [length_reverse, length_digits] at hbits
  rw [mirror, mirror, hbits, reverse_reverse, value_digits, Nat.mod_eq_of_lt h]

end Foundations.Digits
