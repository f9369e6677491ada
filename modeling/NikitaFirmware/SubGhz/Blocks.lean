import NikitaFirmware.Foundations.Digits

/-!
# Blocks of the Sub-GHz protocols

What the protocols under `lib/subghz` share: differences of durations, reversed keys and the pulses
that a decoder is fed.
-/

namespace NikitaFirmware.SubGhz
open Foundations List

def durationDiff (x y : Nat) : Nat := if x < y then y - x else x - y

def bitRead (value bit : Nat) : Nat := (value >>> bit) % 2

def reverseKey (key bitCount : Nat) : Nat :=
  (range bitCount).foldl (fun r i => r * 2 + bitRead key i) 0

/-- A level and its duration. -/
structure Pulse where
  level : Bool
  duration : Nat
  deriving DecidableEq

theorem bitRead_succ (v i : Nat) : bitRead v (i + 1) = bitRead (v / 2) i := by
  rw [bitRead, bitRead, Nat.shiftRight_eq_div_pow, Nat.shiftRight_eq_div_pow, Nat.pow_succ,
    Nat.mul_comm, Nat.div_div_eq_div_mul]

theorem map_bitRead (v n : Nat) : (range n).map (bitRead v) = (Digits.digits 2 n v).reverse := by
  induction n generalizing v with
  | zero => rfl
  | succ n ih =>
    have hsucc : (bitRead v) ∘ Nat.succ = bitRead (v / 2) := funext fun i => bitRead_succ v i
    rw [range_succ_eq_map, map_cons, map_map, hsucc, ih, Digits.digits, reverse_append]
    rfl

theorem reverseKey_eq_mirror (key bitCount : Nat) :
    reverseKey key bitCount = Digits.mirror bitCount key := by
  rw [reverseKey, Digits.mirror, ← map_bitRead, Digits.value, foldl_map]

end NikitaFirmware.SubGhz
