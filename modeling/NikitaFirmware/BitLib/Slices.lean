import NikitaFirmware.Foundations.BitValue
import NikitaFirmware.Foundations.Checked

/-!
# Slices of bits

`lib/bit_lib/bit_lib.c`: reading and writing up to eight bits at any position of an array of bytes,
the highest bit of a byte first, and reading up to 64 of them. Reading is from a memory of which only
some bytes need to be there.
-/

namespace NikitaFirmware.BitLib
open Foundations Foundations.BitArray Foundations.BitValue Foundations.Checked Option

/-- The memory from an address on; a byte that must not be read has no value. -/
abbrev Memory := Nat → Option UInt8

def memory (data : Bytes) : Memory := fun i => data[i]?

def getBit (data : Memory) (position : Nat) : Result Bool := do
  let byte ← access (data (position / 8))
  return byte.toNat.testBit (7 - position % 8)

def getBits (data : Memory) (position length : Nat) : Result UInt8 := do
  let shift := position % 8
  if shift = 0 then do
    let byte ← access (data (position / 8))
    return UInt8.ofNat (byte.toNat >>> (8 - length))
  else if shift + length ≤ 8 then do
    let byte ← access (data (position / 8))
    return UInt8.ofNat ((UInt8.ofNat (byte.toNat <<< shift)).toNat >>> (8 - length))
  else do
    let byte ← access (data (position / 8))
    let next ← access (data (position / 8 + 1))
    let value := UInt8.ofNat (byte.toNat <<< shift) ||| UInt8.ofNat (next.toNat >>> (8 - shift))
    return UInt8.ofNat (value.toNat >>> (8 - length))

/-- The longer slices: `count` more bytes behind an offset, and what is left of the length. -/
def joinBits (w : Nat) (data : Memory) (position length : Nat) :
    Nat → Nat → BitVec w → Result (BitVec w)
  | 0, offset, value => do
    let last ← getBits data (position + offset) (length - offset)
    return value ||| BitVec.ofNat w last.toNat
  | count + 1, offset, value => do
    let byte ← getBits data (position + offset) 8
    joinBits w data position length count (offset + 8)
      (value ||| BitVec.ofNat w byte.toNat <<< (length - (offset + 8)))

def getBits16 (data : Memory) (position length : Nat) : Result (BitVec 16) :=
  if length ≤ 8 then joinBits 16 data position length 0 0 0
  else joinBits 16 data position length 1 0 0

def getBits32 (data : Memory) (position length : Nat) : Result (BitVec 32) :=
  if length ≤ 8 then joinBits 32 data position length 0 0 0
  else if length ≤ 16 then joinBits 32 data position length 1 0 0
  else if length ≤ 24 then joinBits 32 data position length 2 0 0
  else joinBits 32 data position length 3 0 0

def getBits64 (data : Memory) (position length : Nat) : Result (BitVec 64) :=
  if length ≤ 8 then joinBits 64 data position length 0 0 0
  else if length ≤ 16 then joinBits 64 data position length 1 0 0
  else if length ≤ 24 then joinBits 64 data position length 2 0 0
  else if length ≤ 32 then joinBits 64 data position length 3 0 0
  else if length ≤ 40 then joinBits 64 data position length 4 0 0
  else if length ≤ 48 then joinBits 64 data position length 5 0 0
  else if length ≤ 56 then joinBits 64 data position length 6 0 0
  else joinBits 64 data position length 7 0 0

def setBit (data : Bytes) (position : Nat) (bit : Bool) : Result Bytes := do
  let byte ← access data[position / 8]?
  let mask := UInt8.ofNat (1 <<< (7 - position % 8))
  access (Cells.write data (position / 8) [if bit then byte ||| mask else byte &&& ~~~mask])

/-- The loop of `bit_lib_set_bits`, with the number of bits to come, which is the shift of the next
one plus one. -/
def setBitsLoop (position : Nat) (byte : UInt8) (length : Nat) : Nat → Bytes → Result Bytes
  | 0, data => .ok data
  | shift + 1, data => do
    let data ← setBit data (position + (length - (shift + 1))) (byte.toNat.testBit shift)
    setBitsLoop position byte length shift data

def setBits (data : Bytes) (position : Nat) (byte : UInt8) (length : Nat) : Result Bytes := do
  check (length ≤ 8)
  check (0 < length)
  setBitsLoop position byte length length data

/-- The bit of a memory at a position; bytes that are not there count as zero. -/
def bitOf (data : Memory) (k : Nat) : Bool := ((data (k / 8)).getD 0).toNat.testBit (7 - k % 8)

theorem bitOf_memory (data : Bytes) (k : Nat) : bitOf (memory data) k = high data k := by
  rw [bitOf, high, memory, List.getD_eq_getElem?_getD]

/-- The bytes that contain these bits can be read. -/
def Readable (data : Memory) (position length : Nat) : Prop :=
  ∀ k < length, (data ((position + k) / 8)).isSome

variable {data : Memory} {pos length : Nat}

theorem Readable.first (h : Readable data pos length) (hpos : 0 < length) :
    ∃ byte, data (pos / 8) = some byte := isSome_iff_exists.mp (h 0 hpos)

theorem Readable.mono (h : Readable data pos length) {offset count : Nat}
    (hle : offset + count ≤ length) : Readable data (pos + offset) count := by
  intro k hk
  rw [Nat.add_assoc]
  exact h (offset + k) (by omega)

theorem bitOf_of_some {byte : UInt8} {k : Nat} (h : data (k / 8) = some byte) :
    bitOf data k = byte.toNat.testBit (7 - k % 8) := by
  rw [bitOf, h, getD_some]

theorem getBit_eq (h : (data (pos / 8)).isSome) :
    getBit data pos = .ok (bitOf data pos) := by
  obtain ⟨byte, hbyte⟩ := isSome_iff_exists.mp h
  rw [getBit, hbyte, bitOf_of_some hbyte]
  rfl

theorem testBit_upper (byte : UInt8) (hle : length ≤ 8) (k : Nat) :
    (UInt8.ofNat (byte.toNat >>> (8 - length))).toNat.testBit k =
      (decide (k < length) && byte.toNat.testBit (8 - length + k)) := by
  rw [testBit_ofNat, Nat.testBit_shiftRight]
  by_cases hk : k < length
  · rw [decide_eq_true hk, decide_eq_true (Nat.lt_of_lt_of_le hk hle)]
  · rw [decide_eq_false hk, testBit_of_le byte (by omega), Bool.and_false, Bool.false_and]

theorem getBits_eq (hpos : 0 < length) (hle : length ≤ 8) (h : Readable data pos length) :
    ∃ byte, getBits data pos length = .ok byte ∧
      byte.toNat = value (fun k => bitOf data (pos + k)) length := by
  obtain ⟨byte, hbyte⟩ := h.first hpos
  unfold getBits
  dsimp only
  split
  · next hshift =>
    refine ⟨_, by rw [hbyte]; rfl, eq_value fun k => ?_⟩
    rw [testBit_upper byte hle]
    by_cases hk : k < length
    · have hdiv : (pos + (length - 1 - k)) / 8 = pos / 8 := by omega
      have hplace : 7 - (pos + (length - 1 - k)) % 8 = 8 - length + k := by omega
      rw [bitOf, hdiv, hbyte, getD_some, hplace]
    · rw [decide_eq_false hk, Bool.false_and, Bool.false_and]
  · split
    · next hshift hfits =>
      refine ⟨_, by rw [hbyte]; rfl, eq_value fun k => ?_⟩
      rw [testBit_upper _ hle]
      by_cases hk : k < length
      · have hdiv : (pos + (length - 1 - k)) / 8 = pos / 8 := by omega
        have hplace : 7 - (pos + (length - 1 - k)) % 8 = 8 - length + k - pos % 8 := by
          omega
        have hge : 8 - length + k ≥ pos % 8 := by omega
        rw [bitOf, hdiv, hbyte, getD_some, hplace, testBit_ofNat_of_lt (by omega),
          Nat.testBit_shiftLeft, decide_eq_true hge, Bool.true_and]
      · rw [decide_eq_false hk, Bool.false_and, Bool.false_and]
    · next hshift hover =>
      obtain ⟨next, hnext⟩ : ∃ next, data (pos / 8 + 1) = some next := by
        have hlast := h (length - 1) (by omega)
        have hdiv : (pos + (length - 1)) / 8 = pos / 8 + 1 := by omega
        rw [hdiv] at hlast
        exact isSome_iff_exists.mp hlast
      refine ⟨_, by rw [hbyte, hnext]; rfl, eq_value fun k => ?_⟩
      rw [testBit_upper _ hle]
      by_cases hk : k < length
      · rw [testBit_or, testBit_ofNat_of_lt (by omega), testBit_ofNat_of_lt (by omega),
          Nat.testBit_shiftLeft, Nat.testBit_shiftRight]
        by_cases hfirst : 8 - length + k ≥ pos % 8
        · have hdiv : (pos + (length - 1 - k)) / 8 = pos / 8 := by omega
          have hplace : 7 - (pos + (length - 1 - k)) % 8 = 8 - length + k - pos % 8 := by
            omega
          have hend : 8 ≤ 8 - pos % 8 + (8 - length + k) := by omega
          rw [bitOf, hdiv, hbyte, getD_some, hplace, decide_eq_true hfirst, Bool.true_and,
            testBit_of_le next hend, Bool.or_false]
        · have hdiv : (pos + (length - 1 - k)) / 8 = pos / 8 + 1 := by omega
          have hplace : 7 - (pos + (length - 1 - k)) % 8 =
              8 - pos % 8 + (8 - length + k) := by
            omega
          rw [bitOf, hdiv, hnext, getD_some, hplace, decide_eq_false hfirst, Bool.false_and,
            Bool.false_or]
      · rw [decide_eq_false hk, Bool.false_and, Bool.false_and]

theorem toNat_join {w offset count : Nat} {v : BitVec w} {byte : UInt8} {bit : Nat → Bool}
    (hlength : length ≤ w) (hle : offset + count ≤ length)
    (hv : v.toNat = value bit offset <<< (length - offset))
    (hbyte : byte.toNat = value (fun k => bit (offset + k)) count) :
    (v ||| BitVec.ofNat w byte.toNat <<< (length - (offset + count))).toNat =
      value bit (offset + count) <<< (length - (offset + count)) := by
  have hlt : byte.toNat <<< (length - (offset + count)) < 2 ^ w := by
    rw [Nat.shiftLeft_eq, hbyte]
    calc value (fun k => bit (offset + k)) count * 2 ^ (length - (offset + count))
        < 2 ^ count * 2 ^ (length - (offset + count)) :=
          Nat.mul_lt_mul_of_pos_right (value_lt _ _) (Nat.two_pow_pos _)
      _ = 2 ^ (count + (length - (offset + count))) := (Nat.pow_add 2 _ _).symm
      _ ≤ 2 ^ w := Nat.pow_le_pow_right (by decide) (by omega)
  have hbyte' : byte.toNat < 2 ^ w := by
    refine Nat.lt_of_le_of_lt ?_ hlt
    rw [Nat.shiftLeft_eq]
    exact Nat.le_mul_of_pos_right _ (Nat.two_pow_pos _)
  have hsplit : length - offset = count + (length - (offset + count)) := by omega
  rw [BitVec.toNat_or, BitVec.toNat_shiftLeft, BitVec.toNat_ofNat, Nat.mod_eq_of_lt hbyte',
    Nat.mod_eq_of_lt hlt, hv, hsplit, Nat.shiftLeft_add, ← Nat.shiftLeft_or_distrib, hbyte,
    shiftLeft_or_value]

theorem joinBits_eq {w : Nat} (hlength : length ≤ w) (h : Readable data pos length)
    (count offset : Nat) {v : BitVec w} (hlow : offset + 8 * count < length)
    (hhigh : length ≤ offset + 8 * count + 8)
    (hv : v.toNat = value (fun k => bitOf data (pos + k)) offset <<< (length - offset)) :
    ∃ bits, joinBits w data pos length count offset v = .ok bits ∧
      bits.toNat = value (fun k => bitOf data (pos + k)) length := by
  have hbits (offset : Nat) : (fun k => bitOf data (pos + offset + k)) =
      fun k => (fun k => bitOf data (pos + k)) (offset + k) := by
    funext k
    rw [Nat.add_assoc]
  induction count generalizing offset v with
  | zero =>
    obtain ⟨last, hlast, hvalue⟩ := @getBits_eq data (pos + offset) (length - offset)
      (by omega) (by omega) (h.mono (by omega))
    have hall : offset + (length - offset) = length := by omega
    rw [hbits] at hvalue
    have hjoin := toNat_join hlength (Nat.le_of_eq hall) hv hvalue
    rw [hall, Nat.sub_self, Nat.shiftLeft_zero, BitVec.shiftLeft_zero] at hjoin
    refine ⟨_, ?_, hjoin⟩
    rw [joinBits, hlast]
    rfl
  | succ count ih =>
    obtain ⟨byte, hbyte, hvalue⟩ := @getBits_eq data (pos + offset) 8
      (by decide) (by decide) (h.mono (by omega))
    rw [hbits] at hvalue
    obtain ⟨bits, hloop, hbits⟩ := ih (offset + 8) (by omega) (by omega)
      (toNat_join hlength (by omega) hv hvalue)
    refine ⟨bits, ?_, hbits⟩
    rw [joinBits, hbyte]
    exact hloop

theorem joinBits_start {w : Nat} (hlength : length ≤ w) (h : Readable data pos length)
    (count : Nat) (hlow : 8 * count < length) (hhigh : length ≤ 8 * count + 8) :
    ∃ bits, joinBits w data pos length count 0 0 = .ok bits ∧
      bits.toNat = value (fun k => bitOf data (pos + k)) length := by
  refine joinBits_eq hlength h count 0 (by omega) (by omega) ?_
  rw [value_zero, Nat.zero_shiftLeft]
  exact BitVec.toNat_zero

def Reads (w : Nat) (read : Memory → Nat → Nat → Result (BitVec w)) : Prop :=
  ∀ (data : Memory) (position length : Nat), 0 < length → length ≤ w →
    Readable data position length →
    ∃ bits, read data position length = .ok bits ∧
      bits.toNat = value (fun k => bitOf data (position + k)) length

theorem reads_getBits16 : Reads 16 getBits16 := by
  intro data pos length hpos hle h
  unfold getBits16
  split
  · exact joinBits_start hle h 0 (by omega) (by omega)
  · exact joinBits_start hle h 1 (by omega) (by omega)

theorem reads_getBits32 : Reads 32 getBits32 := by
  intro data pos length hpos hle h
  unfold getBits32
  split
  · exact joinBits_start hle h 0 (by omega) (by omega)
  split
  · exact joinBits_start hle h 1 (by omega) (by omega)
  split
  · exact joinBits_start hle h 2 (by omega) (by omega)
  · exact joinBits_start hle h 3 (by omega) (by omega)

theorem reads_getBits64 : Reads 64 getBits64 := by
  intro data pos length hpos hle h
  unfold getBits64
  split
  · exact joinBits_start hle h 0 (by omega) (by omega)
  split
  · exact joinBits_start hle h 1 (by omega) (by omega)
  split
  · exact joinBits_start hle h 2 (by omega) (by omega)
  split
  · exact joinBits_start hle h 3 (by omega) (by omega)
  split
  · exact joinBits_start hle h 4 (by omega) (by omega)
  split
  · exact joinBits_start hle h 5 (by omega) (by omega)
  split
  · exact joinBits_start hle h 6 (by omega) (by omega)
  · exact joinBits_start hle h 7 (by omega) (by omega)

variable {bytes : Bytes}

theorem testBit_mask {shift k : Nat} (hk : k < 8) :
    (UInt8.ofNat (1 <<< shift)).toNat.testBit k = decide (shift = k) := by
  rw [testBit_ofNat_of_lt hk, Nat.one_shiftLeft, Nat.testBit_two_pow]

theorem testBit_setBit (byte : UInt8) {shift k : Nat} (hk : k < 8) (bit : Bool) :
    (if bit then byte ||| UInt8.ofNat (1 <<< shift)
      else byte &&& ~~~UInt8.ofNat (1 <<< shift)).toNat.testBit k =
      if k = shift then bit else byte.toNat.testBit k := by
  cases bit with
  | true =>
    rw [if_pos rfl, testBit_or, testBit_mask hk]
    by_cases h : k = shift
    · rw [if_pos h, decide_eq_true h.symm, Bool.or_true]
    · rw [if_neg h, decide_eq_false fun h' => h h'.symm, Bool.or_false]
  | false =>
    rw [if_neg Bool.false_ne_true, UInt8.toNat_and, Nat.testBit_and, testBit_not _ hk,
      testBit_mask hk]
    by_cases h : k = shift
    · rw [if_pos h, decide_eq_true h.symm, Bool.not_true, Bool.and_false]
    · rw [if_neg h, decide_eq_false fun h' => h h'.symm, Bool.not_false, Bool.and_true]

theorem setBit_eq (h : pos / 8 < bytes.length) (bit : Bool) :
    ∃ bytes', setBit bytes pos bit = .ok bytes' ∧ bytes'.length = bytes.length ∧
      ∀ k, high bytes' k = if k = pos then bit else high bytes k := by
  refine ⟨_, by rw [setBit, access_get h]; exact access_write h _, List.length_set, fun k => ?_⟩
  rw [high_set]
  by_cases hbyte : k / 8 = pos / 8
  · have hplace : k = pos ↔ 7 - k % 8 = 7 - pos % 8 := by omega
    rw [if_pos ⟨hbyte, h⟩, testBit_setBit _ (by omega), high, hbyte]
    exact if_congr hplace.symm rfl rfl
  · rw [if_neg fun h' => hbyte h'.1, if_neg fun h' => hbyte (congrArg (· / 8) h')]

theorem setBitsLoop_eq (byte : UInt8) (shift : Nat) (hshift : shift ≤ length)
    (h : pos + length ≤ 8 * bytes.length) :
    ∃ bytes', setBitsLoop pos byte length shift bytes = .ok bytes' ∧
      bytes'.length = bytes.length ∧
      ∀ k, high bytes' k = if pos + (length - shift) ≤ k ∧ k < pos + length then
        byte.toNat.testBit (pos + length - 1 - k) else high bytes k := by
  induction shift generalizing bytes with
  | zero =>
    refine ⟨bytes, rfl, rfl, fun k => ?_⟩
    rw [if_neg (by omega)]
  | succ shift ih =>
    obtain ⟨bytes₁, hset, hlen, hbits⟩ := @setBit_eq
      (pos + (length - (shift + 1))) bytes (by omega) (byte.toNat.testBit shift)
    obtain ⟨bytes₂, hloop, hlen₂, hbits₂⟩ := @ih bytes₁ (by omega) (by rw [hlen]; exact h)
    refine ⟨bytes₂, ?_, hlen₂.trans hlen, fun k => ?_⟩
    · rw [setBitsLoop, hset]
      exact hloop
    · rw [hbits₂, hbits]
      by_cases hrest : pos + (length - shift) ≤ k ∧ k < pos + length
      · rw [if_pos hrest, if_pos (by omega)]
      · rw [if_neg hrest]
        by_cases hk : k = pos + (length - (shift + 1))
        · have hplace : pos + length - 1 - k = shift := by omega
          rw [if_pos hk, if_pos (by omega), hplace]
        · rw [if_neg hk, if_neg (by omega)]

theorem setBits_eq (byte : UInt8) (hpos : 0 < length) (hle : length ≤ 8)
    (h : pos + length ≤ 8 * bytes.length) :
    ∃ bytes', setBits bytes pos byte length = .ok bytes' ∧ bytes'.length = bytes.length ∧
      ∀ k, high bytes' k = if pos ≤ k ∧ k < pos + length then
        byte.toNat.testBit (pos + length - 1 - k) else high bytes k := by
  obtain ⟨bytes', hloop, hlen, hbits⟩ := setBitsLoop_eq byte length (Nat.le_refl _) h
  rw [Nat.sub_self, Nat.add_zero] at hbits
  refine ⟨bytes', ?_, hlen, hbits⟩
  rw [setBits, check, if_pos hle, check, if_pos hpos]
  exact hloop

theorem readable_memory (h : pos + length ≤ 8 * bytes.length) :
    Readable (memory bytes) pos length := by
  intro k hk
  rw [memory, List.getElem?_eq_getElem (by omega)]
  rfl

end NikitaFirmware.BitLib
