import NikitaFirmware.BitLib.Removal

/-!
# Registers of bits

The rest of `lib/bit_lib/bit_lib.c` that the decoders use: shifting a bit into an array, testing the
parities of blocks of bits, and copying bits from one array to another one.
-/

namespace NikitaFirmware.BitLib
open Foundations Foundations.BitArray Foundations.BitValue Foundations.Checked

inductive BitLibParity
  | even
  | odd
  | always0
  | always1

/-- The loop of `bit_lib_push_bit`, with the number of its rounds. -/
def pushLoop : Nat → Nat → Bytes → Result Bytes
  | 0, _, data => .ok data
  | rounds + 1, i, data => do
    let byte ← access data[i]?
    let next ← access data[i + 1]?
    let data ← access (Cells.write data i
      [UInt8.ofNat (byte.toNat <<< 1 ||| ((next.toNat >>> 7) &&& 1))])
    pushLoop rounds (i + 1) data

def pushBit (data : Bytes) (bit : Bool) : Result Bytes := do
  let lastIndex := data.length - 1
  let data ← pushLoop lastIndex 0 data
  let byte ← access data[lastIndex]?
  access (Cells.write data lastIndex [UInt8.ofNat (byte.toNat <<< 1 ||| bit.toNat)])

def builtinParity (bits : BitVec 32) : Bool := bits.cpop.toNat % 2 = 1

def testParity32 (bits : BitVec 32) : BitLibParity → Result Bool
  | .even => .ok (builtinParity bits)
  | .odd => .ok (!builtinParity bits)
  | _ => .error .check

def testParityBlock (bits : Memory) (position : Nat) (parity : BitLibParity) (parityLength : Nat) :
    Result Bool :=
  match parity with
  | .even | .odd => do
    let parityBlock ← getBits32 bits position parityLength
    testParity32 parityBlock parity
  | .always0 => do
    let bit ← getBit bits (position + parityLength - 1)
    return !bit
  | .always1 => getBit bits (position + parityLength - 1)

def testParityLoop (bits : Memory) (position : Nat) (parity : BitLibParity) (parityLength : Nat) :
    Nat → Nat → Result Bool
  | 0, _ => .ok true
  | rounds + 1, i => do
    let good ← testParityBlock bits (position + i * parityLength) parity parityLength
    if good then testParityLoop bits position parity parityLength rounds (i + 1) else return false

def testParity (bits : Memory) (position length : Nat) (parity : BitLibParity)
    (parityLength : Nat) : Result Bool :=
  testParityLoop bits position parity parityLength (length / parityLength) 0

/-- The loop of `bit_lib_copy_bits`, with the number of its rounds. -/
def copyLoop (position sourcePosition : Nat) (source : Memory) : Nat → Nat → Bytes → Result Bytes
  | 0, _, data => .ok data
  | rounds + 1, i, data => do
    let bit ← getBit source (sourcePosition + i)
    let data ← setBit data (position + i) bit
    copyLoop position sourcePosition source rounds (i + 1) data

def copyBits (data : Bytes) (position length : Nat) (source : Memory) (sourcePosition : Nat) :
    Result Bytes :=
  copyLoop position sourcePosition source length 0 data

variable {bytes data : Bytes} {i n position length count : Nat} {bit : Nat → Bool} {source : Memory}

theorem testBit_shifted (a n : Nat) {k : Nat} (hk : k < 8) (hn : n < 2) :
    (UInt8.ofNat (a <<< 1 ||| n)).toNat.testBit k =
      if k = 0 then decide (n = 1) else a.testBit (k - 1) := by
  rw [testBit_ofNat_of_lt hk, Nat.testBit_or, Nat.testBit_shiftLeft]
  by_cases hzero : k = 0
  · rw [if_pos hzero, hzero, decide_eq_false (by decide), Bool.false_and, Bool.false_or,
      Nat.testBit_zero, Nat.mod_eq_of_lt hn]
  · have hhigh : n.testBit k = false :=
      Nat.testBit_lt_two_pow (Nat.lt_of_lt_of_le hn
        (Nat.pow_le_pow_right (by decide) (Nat.pos_of_ne_zero hzero) : 2 ^ 1 ≤ 2 ^ k))
    have hge : k ≥ 1 := Nat.pos_of_ne_zero hzero
    rw [if_neg hzero, hhigh, Bool.or_false, decide_eq_true hge, Bool.true_and]

theorem decide_top (next : UInt8) :
    decide ((next.toNat >>> 7) &&& 1 = 1) = next.toNat.testBit 7 := by
  rw [Nat.and_one_is_mod, Nat.shiftRight_eq_div_pow, Nat.testBit_eq_decide_div_mod_eq]

theorem pushLoop_eq (rounds : Nat) (hlen : data.length = bytes.length)
    (hroom : i + rounds < bytes.length)
    (hbits : ∀ k, high data k = if k < 8 * i then high bytes (k + 1) else high bytes k) :
    ∃ data', pushLoop rounds i data = .ok data' ∧ data'.length = bytes.length ∧
      ∀ k, high data' k = if k < 8 * (i + rounds) then high bytes (k + 1) else high bytes k := by
  induction rounds generalizing data i with
  | zero => exact ⟨data, rfl, hlen, hbits⟩
  | succ rounds ih =>
    have hnext : i + 1 + rounds = i + (rounds + 1) := by omega
    rw [← hnext, pushLoop, access_get (by omega), access_get (by omega)]
    show ∃ data', (access (Cells.write data i _) >>= fun data => pushLoop rounds (i + 1) data) =
      .ok data' ∧ _
    rw [access_write_bind (by omega)]
    refine ih (by rw [List.length_set, hlen]) (by omega) fun k => ?_
    rw [high_set]
    by_cases hbyte : k / 8 = i
    · rw [if_pos ⟨hbyte, by omega⟩, if_pos (by omega),
        testBit_shifted _ _ (by omega) (Nat.and_lt_two_pow _ (by decide : 1 < 2 ^ 1)), decide_top]
      by_cases hlast : 7 - k % 8 = 0
      · have hindex : k + 1 = 8 * (i + 1) + 0 := by omega
        have hdiv : (k + 1) / 8 = i + 1 := by omega
        have hplace : 7 - (k + 1) % 8 = 7 := by omega
        have hsame := hbits (k + 1)
        rw [if_neg (by omega)] at hsame
        rw [if_pos hlast, ← hsame, high, hdiv, hplace]
      · have hdiv : (k + 1) / 8 = i := by omega
        have hplace : 7 - (k + 1) % 8 = 7 - k % 8 - 1 := by omega
        have hsame := hbits (k + 1)
        rw [if_neg (by omega)] at hsame
        rw [if_neg hlast, ← hsame, high, hdiv, hplace]
    · rw [if_neg fun h => hbyte h.1, hbits]
      by_cases hdone : k < 8 * i
      · rw [if_pos hdone, if_pos (by omega)]
      · rw [if_neg hdone, if_neg (by omega)]

theorem pushBit_eq (hpos : 0 < bytes.length) (b : Bool) :
    ∃ bytes', pushBit bytes b = .ok bytes' ∧ bytes'.length = bytes.length ∧
      ∀ k < 8 * bytes.length, high bytes' k =
        if k = 8 * bytes.length - 1 then b else high bytes (k + 1) := by
  obtain ⟨data, hloop, hlen, hbits⟩ := @pushLoop_eq bytes bytes 0 (bytes.length - 1) rfl (by omega)
    fun k => by rw [if_neg (by omega)]
  rw [Nat.zero_add] at hbits
  have hb : b.toNat < 2 := Nat.lt_succ_of_le (Bool.toNat_le b)
  refine ⟨data.set (bytes.length - 1)
    (UInt8.ofNat ((data.getD (bytes.length - 1) 0).toNat <<< 1 ||| b.toNat)), ?_,
    List.length_set.trans hlen, fun k hk => ?_⟩
  · rw [pushBit, hloop]
    show (access data[bytes.length - 1]? >>= _) = _
    rw [access_get (by omega)]
    exact access_write (by omega) _
  · rw [high_set]
    by_cases hbyte : k / 8 = bytes.length - 1
    · rw [if_pos ⟨hbyte, by omega⟩, testBit_shifted _ _ (by omega) hb]
      by_cases hlast : 7 - k % 8 = 0
      · rw [if_pos hlast, if_pos (by omega)]
        cases b <;> rfl
      · have hdiv : (k + 1) / 8 = bytes.length - 1 := by omega
        have hplace : 7 - (k + 1) % 8 = 7 - k % 8 - 1 := by omega
        have hsame := hbits (k + 1)
        rw [if_neg (by omega)] at hsame
        rw [if_neg hlast, if_neg (by omega), ← hsame, high, hdiv, hplace]
    · rw [if_neg fun h => hbyte h.1, hbits, if_pos (by omega), if_neg (by omega)]

theorem copyBits_eq (bytes : Bytes) (position length : Nat) (source : Memory) (sourcePosition : Nat)
    (hroom : position + length ≤ 8 * bytes.length)
    (hsource : Readable source sourcePosition length) :
    ∃ bytes', copyBits bytes position length source sourcePosition = .ok bytes' ∧
      Put bytes position (fun k => bitOf source (sourcePosition + k)) length bytes' := by
  have hloop : ∀ rounds i data, i + rounds = length →
      Put bytes position (fun k => bitOf source (sourcePosition + k)) i data →
      ∃ bytes', copyLoop position sourcePosition source rounds i data = .ok bytes' ∧
        Put bytes position (fun k => bitOf source (sourcePosition + k)) length bytes' := by
    intro rounds
    induction rounds with
    | zero =>
      rintro i data rfl hput
      exact ⟨data, rfl, hput⟩
    | succ rounds ih =>
      intro i data hi hput
      obtain ⟨data₁, hset, hlen₁, hbits₁⟩ := @setBit_eq (position + i) data
        (by rw [hput.length]; omega) (bitOf source (sourcePosition + i))
      obtain ⟨bytes', hrest, hput'⟩ := ih (i + 1) data₁ (by omega) ⟨hlen₁.trans hput.length,
        fun k => by
          rw [hbits₁, hput.bits]
          by_cases hk : k = position + i
          · have hindex : k - position = i := by omega
            rw [if_pos hk, if_pos (by omega), hindex]
          · rw [if_neg hk]
            exact if_congr (by omega) rfl rfl⟩
      refine ⟨bytes', ?_, hput'⟩
      rw [copyLoop, getBit_eq (hsource i (by omega))]
      show (setBit data (position + i) _ >>= _) = _
      rw [hset]
      exact hrest
  exact hloop length 0 bytes (Nat.zero_add _) (Put.start _ _ _)

def oddBits (bit : Nat → Bool) : Bool := bit 0 ^^ bit 1 ^^ bit 2 ^^ bit 3

theorem builtinParity_four {bits : BitVec 32} (h : bits.toNat = value bit 4) :
    builtinParity bits = oddBits bit := by
  have hbits : bits = BitVec.ofNat 32 (value bit 4) := by
    rw [← h, BitVec.ofNat_toNat, BitVec.setWidth_eq]
  rw [hbits, oddBits, value_succ, value_succ, value_succ, value_succ, value_zero]
  generalize bit 0 = b0
  generalize bit 1 = b1
  generalize bit 2 = b2
  generalize bit 3 = b3
  revert b0 b1 b2 b3
  decide

theorem testParity_odd_four (count : Nat) (h : Readable source position (count * 4)) :
    testParity source position (count * 4) .odd 4 =
      .ok (decide (∀ g < count, oddBits (fun k => bitOf source (position + g * 4 + k)) = false)) := by
  have hloop : ∀ rounds i, i + rounds = count → testParityLoop source position .odd 4 rounds i =
        .ok (decide (∀ g < count, i ≤ g →
          oddBits (fun k => bitOf source (position + g * 4 + k)) = false)) := by
    intro rounds
    induction rounds with
    | zero =>
      rintro i rfl
      rw [testParityLoop, decide_eq_true fun g hg hi => absurd hg (by omega)]
    | succ rounds ih =>
      intro i hi
      obtain ⟨block, hblock, hvalue⟩ := reads_getBits32 source (position + i * 4) 4 (by decide)
        (by decide) (h.mono (by omega))
      have hgroup : testParityBlock source (position + i * 4) .odd 4 =
          .ok (!oddBits fun k => bitOf source (position + i * 4 + k)) := by
        rw [testParityBlock, hblock]
        show testParity32 block .odd = _
        rw [testParity32, builtinParity_four hvalue]
      rw [testParityLoop, hgroup]
      show (if (!oddBits fun k => bitOf source (position + i * 4 + k)) = true then
        testParityLoop source position .odd 4 rounds (i + 1) else Except.ok false) = _
      cases hodd : oddBits fun k => bitOf source (position + i * 4 + k) with
      | true =>
        rw [if_neg (by decide), decide_eq_false fun hall => ?_]
        rw [hall i (by omega) (Nat.le_refl i)] at hodd
        exact Bool.false_ne_true hodd
      | false =>
        rw [if_pos (by decide), ih (i + 1) (by omega)]
        refine congrArg Except.ok (decide_eq_decide.mpr ⟨fun hall g hg hle => ?_,
          fun hall g hg hle => hall g hg (by omega)⟩)
        by_cases heq : g = i
        · rw [heq, hodd]
        · exact hall g hg (by omega)
  rw [testParity, Nat.mul_div_cancel _ (by decide), hloop count 0 (Nat.zero_add _)]
  exact congrArg Except.ok (decide_eq_decide.mpr
    ⟨fun hall g hg => hall g hg (Nat.zero_le g), fun hall g hg _ => hall g hg⟩)

end NikitaFirmware.BitLib
