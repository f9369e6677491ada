import Mathlib.Data.BitVec
import NikitaFirmware.Foundations.Rollback
import NikitaFirmware.Nfc.BitBuffer
import Mathlib.Tactic.IntervalCases

/-!
# Crypto1

`nfc/helpers/crypto1.c`. Bits go into the generator in the order of the loops of the source: a
byte from its lowest bit on, a word byte by byte from its highest byte on.
-/

namespace NikitaFirmware.Nfc
open Foundations Foundations.KeystreamGenerator List

abbrev Word := BitVec 32

structure Crypto1 where
  odd : Word
  even : Word

namespace Crypto1

def lfPolyOdd : Word := 0x29CE5C
def lfPolyEven : Word := 0x870804

def evenParity32 (x : Word) : Bool :=
  let x := x ^^^ (x >>> 16)
  let x := x ^^^ (x >>> 8)
  let x := x ^^^ (x >>> 4)
  let x := x ^^^ (x >>> 2)
  let x := x ^^^ (x >>> 1)
  x.getLsbD 0

def oddParity8 (byte : Byte) : Bool := !evenParity32 (byte.toBitVec.setWidth 32)

def filter (x : Word) : Bool :=
  let out : Word := ((0xF22C0 : Word) >>> (x &&& 0xF)) &&& 16
  let out := out ||| (((0x6C9C0 : Word) >>> ((x >>> 4) &&& 0xF)) &&& 8)
  let out := out ||| (((0x3C8B0 : Word) >>> ((x >>> 8) &&& 0xF)) &&& 4)
  let out := out ||| (((0x1E458 : Word) >>> ((x >>> 12) &&& 0xF)) &&& 2)
  let out := out ||| (((0x0D938 : Word) >>> ((x >>> 16) &&& 0xF)) &&& 1)
  (0xEC57E80A : Word).getLsbD out.toNat

def generator : KeystreamGenerator Crypto1 where
  out c := filter c.odd
  next c bit :=
    let feed := (if bit then 1 else 0) ^^^ (lfPolyOdd &&& c.odd) ^^^ (lfPolyEven &&& c.even)
    { odd := (c.even <<< 1) ||| (if evenParity32 feed then 1 else 0), even := c.odd }

def reset : Crypto1 := ⟨0, 0⟩

def keyBit (key : BitVec 48) (i : Nat) : Word := if key.getLsbD (i ^^^ 7) then 1 else 0

/-- `crypto1_init`; the loop counts down from 47 by 2. -/
def init (key : BitVec 48) : Crypto1 :=
  ((range 24).map fun n => 47 - 2 * n).foldl (fun c i =>
    { odd := (c.odd <<< 1) ||| keyBit key (i - 1), even := (c.even <<< 1) ||| keyBit key i }) reset

def byteBits (b : Byte) : List Bool := (range 8).map b.toBitVec.getLsbD

def byteOfBits (bits : List Bool) : Byte :=
  UInt8.ofBitVec ((BitVec.ofBoolListLE bits).setWidth 8)

/-- The order of `BEBIT`. -/
def wordBits (w : Word) : List Bool := (range 32).map fun i => w.getLsbD (i ^^^ 24)

def wordOfBits (bits : List Bool) : Word :=
  (BitVec.ofBoolListLE ((range 32).map fun i => bits.getD (i ^^^ 24) false)).setWidth 32

def byte (c : Crypto1) (input : Byte) (isEncrypted : Bool) : Byte × Crypto1 :=
  ((byteOfBits (generator.run c isEncrypted (byteBits input)).1),
    (generator.run c isEncrypted (byteBits input)).2)

def word (c : Crypto1) (input : Word) (isEncrypted : Bool) : Word × Crypto1 :=
  (wordOfBits (generator.run c isEncrypted (wordBits input)).1,
    (generator.run c isEncrypted (wordBits input)).2)

def swapEndian (x : Word) : Word :=
  let x := ((x >>> 8) &&& 0xFF00FF) ||| ((x &&& 0xFF00FF) <<< 8)
  (x >>> 16) ||| (x <<< 16)

def prngStep (x : Word) : Word :=
  (x >>> 1) ||| ((x >>> 16 ^^^ x >>> 18 ^^^ x >>> 19 ^^^ x >>> 21) <<< 31)

def prngSuccessor (x : Word) (n : Nat) : Word := swapEndian (prngStep^[n] (swapEndian x))

def bytesToNum (bytes : List Byte) : Word :=
  bytes.foldl (fun num b => (num <<< 8) ||| b.toBitVec.setWidth 32) 0

def numToBytes (w : Word) : List Byte :=
  [UInt8.ofBitVec (w.extractLsb' 24 8), UInt8.ofBitVec (w.extractLsb' 16 8),
    UInt8.ofBitVec (w.extractLsb' 8 8), UInt8.ofBitVec (w.extractLsb' 0 8)]

/-- A part of a byte under the keystream. -/
def shortByte (c : Crypto1) (input : Byte) (bits : Nat) : Byte × Crypto1 :=
  let ks := generator.run c false (replicate bits false)
  (byteOfBits (cover ((byteBits input).take bits) ks.1), ks.2)

def decryptBytes : Crypto1 → Nat → List Byte → BitBuffer → Option (Crypto1 × BitBuffer)
  | c, _, [], out => some (c, out)
  | c, i, b :: bs, out =>
    (out.setByte i ((c.byte 0 false).1 ^^^ b)).bind (decryptBytes (c.byte 0 false).2 (i + 1) bs)

/-- `crypto1_decrypt`; a frame of less than a byte is taken for four bits. -/
def decrypt (c : Crypto1) (buff out : BitBuffer) : Option (Crypto1 × BitBuffer) :=
  (out.setSize buff.sizeBits).bind fun out =>
    if buff.sizeBits < 8 then
      (out.setByte 0 (c.shortByte (buff.data.headD 0) 4).1).map fun out =>
        ((c.shortByte (buff.data.headD 0) 4).2, out)
    else decryptBytes c 0 (buff.data.take (buff.sizeBits / 8)) out

/-- The loop of `crypto1_encrypt` over whole bytes. `keystream` is fed into the generator. -/
def encryptBytes : Crypto1 → Nat → List Byte → List Byte → BitBuffer → Option (Crypto1 × BitBuffer)
  | c, _, _, [], out => some (c, out)
  | c, i, keystream, b :: bs, out =>
    (out.setByteWithParity i ((c.byte (keystream.headD 0) false).1 ^^^ b)
      (filter (c.byte (keystream.headD 0) false).2.odd ^^ oddParity8 b)).bind
      (encryptBytes (c.byte (keystream.headD 0) false).2 (i + 1) keystream.tail bs)

def encrypt (c : Crypto1) (keystream : List Byte) (buff out : BitBuffer) :
    Option (Crypto1 × BitBuffer) :=
  (out.setSize buff.sizeBits).bind fun out =>
    if buff.sizeBits < 8 then
      (out.setByte 0 (c.shortByte (buff.data.headD 0) buff.sizeBits).1).map fun out =>
        ((c.shortByte (buff.data.headD 0) buff.sizeBits).2, out)
    else encryptBytes c 0 keystream (buff.data.take (buff.sizeBits / 8)) out

def encryptNonce : Crypto1 → Nat → List Byte → BitBuffer → Option (Crypto1 × BitBuffer)
  | c, _, [], out => some (c, out)
  | c, i, b :: bs, out =>
    (out.setByteWithParity i ((c.byte b false).1 ^^^ b)
      (filter (c.byte b false).2.odd ^^ oddParity8 b)).bind
      (encryptNonce (c.byte b false).2 (i + 1) bs)

def lowByte (w : Word) : Byte := UInt8.ofBitVec (w.setWidth 8)

/-- The loop of `crypto1_encrypt_reader_nonce` over the reader's answer. -/
def encryptAnswer : Nat → Crypto1 → Nat → Word → BitBuffer → Option (Crypto1 × BitBuffer)
  | 0, c, _, _, out => some (c, out)
  | n + 1, c, i, nt, out =>
    (out.setByteWithParity i ((c.byte 0 false).1 ^^^ lowByte (prngSuccessor nt 8))
      (filter (c.byte 0 false).2.odd ^^ oddParity8 (lowByte (prngSuccessor nt 8)))).bind
      (encryptAnswer n (c.byte 0 false).2 (i + 1) (prngSuccessor nt 8))

def encryptReaderNonce (key : BitVec 48) (cuid : Word) (nt nr : List Byte) (out : BitBuffer)
    (isNested : Bool) : Option (Crypto1 × BitBuffer) :=
  (out.setSizeBytes 8).bind fun out =>
    let first := (init key).word (bytesToNum nt ^^^ cuid) isNested
    let nt := if isNested then first.1 ^^^ bytesToNum nt else bytesToNum nt
    (encryptNonce first.2 0 nr out).bind fun r =>
      encryptAnswer 4 r.1 4 (prngSuccessor nt 32) r.2

variable {c : Crypto1} {e : Bool} {b : Byte} {bs : List Byte}

theorem length_byteBits (b : Byte) : (byteBits b).length = 8 := rfl

theorem byteBits_byteOfBits {bits : List Bool} (h : bits.length = 8) :
    byteBits (byteOfBits bits) = bits := by
  have hall : ∀ b₀ b₁ b₂ b₃ b₄ b₅ b₆ b₇ : Bool,
      byteBits (byteOfBits [b₀, b₁, b₂, b₃, b₄, b₅, b₆, b₇]) =
        [b₀, b₁, b₂, b₃, b₄, b₅, b₆, b₇] := by decide +kernel
  match bits, h with
  | [b₀, b₁, b₂, b₃, b₄, b₅, b₆, b₇], _ => exact hall b₀ b₁ b₂ b₃ b₄ b₅ b₆ b₇

theorem byteBits_xor (a b : Byte) : byteBits (a ^^^ b) = cover (byteBits a) (byteBits b) := by
  simp [byteBits, cover, range_succ]

theorem wordBits_bytesToNum (b₀ b₁ b₂ b₃ : Byte) : wordBits (bytesToNum [b₀, b₁, b₂, b₃]) =
      byteBits b₀ ++ byteBits b₁ ++ byteBits b₂ ++ byteBits b₃ := by
  simp [wordBits, bytesToNum, byteBits, range_succ]

theorem xor_lt_32 {i : Nat} (hi : i < 32) : i ^^^ 24 < 32 :=
  Nat.xor_lt_two_pow (n := 5) hi (by decide)

theorem xor_xor_24 (i : Nat) : i ^^^ 24 ^^^ 24 = i := by
  rw [Nat.xor_assoc, Nat.xor_self, Nat.xor_zero]

theorem getD_wordBits (w : Word) {i : Nat} (hi : i < 32) :
    (wordBits w).getD i false = w.getLsbD (i ^^^ 24) := by
  rw [wordBits, getD_eq_getElem?_getD, getElem?_map, getElem?_range hi]
  rfl

theorem getLsbD_wordOfBits (bits : List Bool) {i : Nat} (hi : i < 32) :
    (wordOfBits bits).getLsbD i = bits.getD (i ^^^ 24) false := by
  rw [wordOfBits, BitVec.getLsbD_setWidth, BitVec.getLsbD_ofBoolListLE, decide_eq_true hi,
    Bool.true_and, getD_eq_getElem?_getD, getElem?_map, getElem?_range hi]
  rfl

theorem wordOfBits_wordBits (w : Word) : wordOfBits (wordBits w) = w := by
  apply BitVec.eq_of_getLsbD_eq
  intro i hi
  rw [getLsbD_wordOfBits _ hi, getD_wordBits w (xor_lt_32 hi), xor_xor_24]

theorem wordBits_numToBytes (w : Word) : (numToBytes w).flatMap byteBits = wordBits w := by
  simp [wordBits, numToBytes, byteBits, range_succ]

theorem wordBits_injective {v w : Word} (h : wordBits v = wordBits w) : v = w := by
  rw [← wordOfBits_wordBits v, h, wordOfBits_wordBits]

theorem wordBits_xor (v w : Word) : wordBits (v ^^^ w) = cover (wordBits v) (wordBits w) := by
  simp [wordBits, cover, range_succ]

theorem wordBits_wordOfBits {bits : List Bool} (h : bits.length = 32) :
    wordBits (wordOfBits bits) = bits := by
  apply ext_getElem
  · rw [h]
    rfl
  · intro i hi hi'
    have hget : (wordBits (wordOfBits bits)).getD i false = bits.getD i false := by
      rw [getD_wordBits _ (by omega), getLsbD_wordOfBits _ (xor_lt_32 (by omega)), xor_xor_24]
    rwa [getD_eq_getElem?_getD, getD_eq_getElem?_getD, getElem?_eq_getElem hi,
      getElem?_eq_getElem hi', Option.getD_some, Option.getD_some] at hget

/-- The state once these bytes have gone into the generator. -/
def after (c : Crypto1) (e : Bool) (bs : List Byte) : Crypto1 :=
  (generator.run c e (bs.flatMap byteBits)).2

theorem after_cons : c.after e (b :: bs) = (c.byte b e).2.after e bs := by
  rw [after, flatMap_cons, run_append]
  rfl

theorem word_snd (w : Word) : (c.word w e).2 = c.after e (numToBytes w) := by
  rw [after, wordBits_numToBytes]
  rfl

theorem word_bytesToNum_snd (h : bs.length = 4) : (c.word (bytesToNum bs) e).2 = c.after e bs := by
  match bs, h with
  | [b₀, b₁, b₂, b₃], _ =>
    have hbits := wordBits_bytesToNum b₀ b₁ b₂ b₃
    rw [after]
    simp only [word, hbits, flatMap_cons, flatMap_nil, append_nil, append_assoc]

theorem byteBits_byte (b : Byte) : byteBits (c.byte b e).1 = (generator.run c e (byteBits b)).1 :=
  byteBits_byteOfBits length_run

theorem byte_encrypted (b : Byte) : c.byte ((c.byte b false).1 ^^^ b) true = c.byte b false := by
  have hbits : byteBits ((c.byte b false).1 ^^^ b) =
      cover (byteBits b) (generator.run c false (byteBits b)).1 := by
    rw [UInt8.xor_comm, byteBits_xor, byteBits_byte]
  have hbyte : ∀ x, c.byte x true = (byteOfBits (generator.run c true (byteBits x)).1,
      (generator.run c true (byteBits x)).2) := fun _ => rfl
  rw [hbyte, hbits, run_encrypted]
  rfl

/-- The bytes under the keystream that they feed. -/
def coverFed (c : Crypto1) : List Byte → List Byte
  | [] => []
  | b :: bs => ((c.byte b false).1 ^^^ b) :: coverFed (c.byte b false).2 bs

theorem length_coverFed : (c.coverFed bs).length = bs.length := by
  induction bs generalizing c with
  | nil => rfl
  | cons b bs ih => rw [coverFed, length_cons, length_cons, ih]

theorem after_coverFed : c.after true (c.coverFed bs) = c.after false bs := by
  induction bs generalizing c with
  | nil => rfl
  | cons b bs ih => rw [coverFed, after_cons, after_cons, byte_encrypted, ih]

theorem getLsbD_prngStep (x : Word) {i : Nat} (hi : i < 31) :
    (prngStep x).getLsbD i = x.getLsbD (i + 1) := by
  have hlt : i < 32 := by omega
  rw [prngStep, BitVec.getLsbD_or, BitVec.getLsbD_ushiftRight, BitVec.getLsbD_shiftLeft,
    decide_eq_true hi, Nat.add_comm]
  simp

theorem getLsbD_prngStep_iterate (x : Word) (n : Nat) {i : Nat} (hi : i + n < 32) :
    (prngStep^[n] x).getLsbD i = x.getLsbD (i + n) := by
  induction n generalizing i with
  | zero => rfl
  | succ n ih =>
    rw [Function.iterate_succ_apply', getLsbD_prngStep _ (by omega), ih (by omega)]
    congr 1
    omega

theorem getLsbD_swapEndian (x : Word) {i : Nat} (hi : i < 32) :
    (swapEndian x).getLsbD i = x.getLsbD (i ^^^ 24) := by
  interval_cases i <;> simp [swapEndian]

theorem swapEndian_swapEndian (x : Word) : swapEndian (swapEndian x) = x := by
  apply BitVec.eq_of_getLsbD_eq
  intro i hi
  have hxor : i ^^^ 24 < 32 := Nat.xor_lt_two_pow (n := 5) hi (by decide)
  rw [getLsbD_swapEndian _ hi, getLsbD_swapEndian _ hxor, Nat.xor_assoc, Nat.xor_self, Nat.xor_zero]

theorem prngSuccessor_add (x : Word) (m n : Nat) :
    prngSuccessor x (m + n) = prngSuccessor (prngSuccessor x m) n := by
  rw [prngSuccessor, prngSuccessor, prngSuccessor, swapEndian_swapEndian, Nat.add_comm,
    Function.iterate_add_apply]

theorem getLsbD_prngSuccessor (x : Word) {k i : Nat} (hk : k < 4) (hi : i < 8) :
    (prngSuccessor x 32).getLsbD (24 - 8 * k + i) = (prngSuccessor x (8 * (k + 1))).getLsbD i := by
  have hxor : ∀ k < 4, ∀ i < 8, (24 - 8 * k + i) ^^^ 24 = 8 * k + i ∧ i ^^^ 24 = 24 + i := by
    decide
  have hsteps : prngStep^[32] (swapEndian x) =
      prngStep^[24 - 8 * k] (prngStep^[8 * (k + 1)] (swapEndian x)) := by
    rw [← Function.iterate_add_apply]
    congr 1
    omega
  rw [prngSuccessor, prngSuccessor, getLsbD_swapEndian _ (by omega),
    getLsbD_swapEndian _ (by omega), (hxor k hk i hi).1, (hxor k hk i hi).2]
  rw [hsteps, getLsbD_prngStep_iterate _ _ (by omega)]
  congr 1
  omega

/-- The bytes that `crypto1_encrypt_reader_nonce` gets out of the card's generator. -/
def answerBytes : Nat → Word → List Byte
  | 0, _ => []
  | n + 1, x => lowByte (prngSuccessor x 8) :: answerBytes n (prngSuccessor x 8)

theorem numToBytes_prngSuccessor (x : Word) :
    numToBytes (prngSuccessor x 32) = answerBytes 4 x := by
  have hbyte : ∀ k < 4, UInt8.ofBitVec ((prngSuccessor x 32).extractLsb' (24 - 8 * k) 8) =
      lowByte (prngSuccessor x (8 * (k + 1))) := by
    intro k hk
    refine congrArg UInt8.ofBitVec (BitVec.eq_of_getLsbD_eq fun i hi => ?_)
    rw [BitVec.getLsbD_extractLsb', BitVec.getLsbD_setWidth, getLsbD_prngSuccessor x hk hi]
  simp only [answerBytes, ← prngSuccessor_add]
  exact congrArg₂ cons (hbyte 0 (by decide)) <| congrArg₂ cons (hbyte 1 (by decide)) <|
    congrArg₂ cons (hbyte 2 (by decide)) <| congrArg₂ cons (hbyte 3 (by decide)) rfl

end Crypto1

end NikitaFirmware.Nfc
