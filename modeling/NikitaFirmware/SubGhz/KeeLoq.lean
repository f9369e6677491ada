import NikitaFirmware.Foundations.Loops

/-!
# KeeLoq

`lib/subghz/protocols/keeloq_common.c`, the cipher. Each of the 528 rounds shifts the register by
one bit and feeds a nonlinear bit in at the other end; the two directions take the bits of the key
in opposite orders.
-/

namespace NikitaFirmware.SubGhz
open Foundations List BitVec

namespace KeeLoq

variable {w : Nat}

def bit (x : BitVec w) (n : Nat) : BitVec w := (x >>> n) &&& 1

def g5 (x : BitVec 32) (a b c d e : Nat) : BitVec 32 :=
  bit x a + bit x b * 2 + bit x c * 4 + bit x d * 8 + bit x e * 16

def nlf : BitVec 32 := 0x3A5C742E

def keyBit (key : BitVec 64) (n : BitVec 32) : BitVec 32 := (bit key (n &&& 63).toNat).setWidth 32

/-- The body of the loop of `subghz_protocol_keeloq_common_encrypt`. -/
def encryptRound (key : BitVec 64) (n x : BitVec 32) : BitVec 32 :=
  (x >>> 1) ^^^ ((bit x 0 ^^^ bit x 16 ^^^ keyBit key n ^^^
    bit nlf (g5 x 1 9 20 26 31).toNat) <<< 31)

/-- The body of the loop of `subghz_protocol_keeloq_common_decrypt`. -/
def decryptRound (key : BitVec 64) (n x : BitVec 32) : BitVec 32 :=
  (x <<< 1) ^^^ bit x 31 ^^^ bit x 15 ^^^ keyBit key n ^^^ bit nlf (g5 x 0 8 19 25 30).toNat

def encrypt (data : BitVec 32) (key : BitVec 64) : BitVec 32 :=
  (List.range 528).foldl (fun x r => encryptRound key (BitVec.ofNat 32 r) x) data

def decrypt (data : BitVec 32) (key : BitVec 64) : BitVec 32 :=
  (List.range 528).foldl (fun x r => decryptRound key (15 - BitVec.ofNat 32 r) x) data

variable {x y : BitVec 32} {key : BitVec 64} {n : BitVec 32} {i : Nat}

theorem getLsbD_bit (x : BitVec w) (n i : Nat) :
    (bit x n).getLsbD i = (decide (i = 0) && x.getLsbD n) := by
  have hone : (1 : BitVec w).getLsbD i = (decide (i = 0) && decide (0 < w)) := by
    change (1#w).getLsbD i = _
    rw [getLsbD_one, Bool.and_comm]
  rw [bit, getLsbD_and, getLsbD_ushiftRight, hone]
  by_cases h : i = 0
  · subst h
    by_cases hw : 0 < w
    · simp [hw]
    · have hn : x.getLsbD n = false := getLsbD_of_ge x n (by omega)
      simp [hw, hn]
  · simp [h]

theorem getLsbD_keyBit (key : BitVec 64) (n : BitVec 32) (i : Nat) :
    (keyBit key n).getLsbD i = (decide (i = 0) && key.getLsbD (n &&& 63).toNat) := by
  rw [keyBit, getLsbD_setWidth, getLsbD_bit]
  by_cases h : i = 0 <;> simp [h]

/-- The bit that comes in at the upper end. -/
def feedback (key : BitVec 64) (n x : BitVec 32) : Bool :=
  x.getLsbD 0 ^^ x.getLsbD 16 ^^ key.getLsbD (n &&& 63).toNat ^^
    nlf.getLsbD (g5 x 1 9 20 26 31).toNat

theorem getLsbD_encryptRound (hi : i < 32) :
    (encryptRound key n x).getLsbD i = if i = 31 then feedback key n x else x.getLsbD (i + 1) := by
  rw [encryptRound, getLsbD_xor, getLsbD_ushiftRight, getLsbD_shiftLeft,
    getLsbD_xor, getLsbD_xor, getLsbD_xor, getLsbD_bit, getLsbD_bit,
    getLsbD_keyBit, getLsbD_bit]
  by_cases h : i = 31
  · subst h
    have hout : x.getLsbD (1 + 31) = false := getLsbD_of_ge x 32 (Nat.le_refl 32)
    rw [hout, if_pos rfl, feedback]
    simp
  · have hlt : i < 31 := by omega
    rw [if_neg h, Nat.add_comm 1 i]
    simp [hlt]

theorem getLsbD_decryptRound (hi : i < 32) : (decryptRound key n y).getLsbD i = if i = 0 then
      (y.getLsbD 31 ^^ y.getLsbD 15 ^^ key.getLsbD (n &&& 63).toNat ^^
        nlf.getLsbD (g5 y 0 8 19 25 30).toNat) else y.getLsbD (i - 1) := by
  rw [decryptRound, getLsbD_xor, getLsbD_xor, getLsbD_xor, getLsbD_xor,
    getLsbD_shiftLeft, getLsbD_bit, getLsbD_bit, getLsbD_keyBit, getLsbD_bit]
  by_cases h : i = 0
  · simp [h]
  · have hge : ¬ i < 1 := by omega
    rw [if_neg h]
    simp [h, hi, hge]

theorem bit_congr {m : Nat} (h : y.getLsbD i = x.getLsbD m) : bit y i = bit x m := by
  refine eq_of_getLsbD_eq fun j _ => ?_
  rw [getLsbD_bit, getLsbD_bit, h]

theorem g5_of_shift (h : ∀ i < 31, y.getLsbD i = x.getLsbD (i + 1)) :
    g5 y 0 8 19 25 30 = g5 x 1 9 20 26 31 := by
  rw [g5, g5, bit_congr (h 0 (by decide)), bit_congr (h 8 (by decide)),
    bit_congr (h 19 (by decide)), bit_congr (h 25 (by decide)), bit_congr (h 30 (by decide))]

theorem decryptRound_encryptRound (key : BitVec 64) (n x : BitVec 32) :
    decryptRound key n (encryptRound key n x) = x := by
  have hshift : ∀ i < 31, (encryptRound key n x).getLsbD i = x.getLsbD (i + 1) := by
    intro i hi
    rw [getLsbD_encryptRound (by omega), if_neg (by omega)]
  refine eq_of_getLsbD_eq fun i hi => ?_
  rw [getLsbD_decryptRound hi]
  by_cases h : i = 0
  · rw [if_pos h, g5_of_shift hshift, hshift 15 (by decide), getLsbD_encryptRound (by decide),
      if_pos rfl, h, feedback]
    cases x.getLsbD 0 <;> cases x.getLsbD 16 <;> cases key.getLsbD (n &&& 63).toNat <;> simp
  · rw [if_neg h, hshift (i - 1) (by omega)]
    congr 1
    omega

theorem encryptRound_decryptRound (key : BitVec 64) (n y : BitVec 32) :
    encryptRound key n (decryptRound key n y) = y := by
  have hshift : ∀ i < 31, y.getLsbD i = (decryptRound key n y).getLsbD (i + 1) := by
    intro i hi
    rw [getLsbD_decryptRound (by omega), if_neg (by omega)]
    rfl
  refine eq_of_getLsbD_eq fun i hi => ?_
  rw [getLsbD_encryptRound hi]
  by_cases h : i = 31
  · rw [if_pos h, feedback, ← g5_of_shift hshift, ← hshift 15 (by decide),
      getLsbD_decryptRound (by decide), if_pos rfl, h]
    cases y.getLsbD 31 <;> cases y.getLsbD 15 <;> cases key.getLsbD (n &&& 63).toNat <;> simp
  · rw [if_neg h, hshift i (by omega)]

def round (key : BitVec 64) (n : BitVec 32) : Equiv.Perm (BitVec 32) where
  toFun := encryptRound key n
  invFun := decryptRound key n
  left_inv := decryptRound_encryptRound key n
  right_inv := encryptRound_decryptRound key n

/-- The keys of the rounds, in the order of the encryption. -/
def schedule : List (BitVec 32) := (List.range 528).map (BitVec.ofNat 32)

theorem encrypt_eq (data : BitVec 32) (key : BitVec 64) :
    encrypt data key = schedule.foldl (fun x n => round key n x) data := by
  rw [schedule, foldl_map]
  rfl

theorem decryptRound_congr {m : BitVec 32} (h : n &&& 63 = m &&& 63) :
    decryptRound key n x = decryptRound key m x := by
  rw [decryptRound, decryptRound, keyBit, keyBit, h]

theorem index_decrypt {r : Nat} (hr : r < 528) :
    (15 - BitVec.ofNat 32 r) &&& 63 = BitVec.ofNat 32 (527 - r) &&& 63 := by
  revert r
  decide +kernel

theorem decrypt_eq (data : BitVec 32) (key : BitVec 64) :
    decrypt data key = schedule.reverse.foldl (fun x n => (round key n).symm x) data := by
  have hreverse : schedule.reverse = (List.range 528).map fun r => BitVec.ofNat 32 (527 - r) := by
    rw [schedule, ← map_reverse, range_eq_range', reverse_range', map_map, range_eq_range']
    refine map_congr_left fun r _ => ?_
    simp
  rw [hreverse, foldl_map, decrypt]
  refine foldl_ext _ _ _ fun x r hr => ?_
  exact decryptRound_congr (index_decrypt (mem_range.mp hr))

/-- For a fixed key the encryption is a bijection of the blocks, and the decryption its inverse. -/
theorem decrypt_inverts_encrypt (key : BitVec 64) :
    (∀ data, decrypt (encrypt data key) key = data) ∧
      (∀ data, encrypt (decrypt data key) key = data) ∧
      Function.Bijective fun data => encrypt data key := by
  refine ⟨fun data => ?_, fun data => ?_, ?_⟩
  · rw [encrypt_eq, decrypt_eq, Rounds.foldl_symm_reverse]
  · rw [encrypt_eq, decrypt_eq, Rounds.foldl_reverse_symm]
  · have h : (fun data => encrypt data key) = fun data =>
        schedule.foldl (fun x n => round key n x) data := funext fun data => encrypt_eq data key
    rw [h]
    exact Rounds.bijective_foldl (round key) schedule

end KeeLoq

end NikitaFirmware.SubGhz
