import NikitaFirmware.Foundations.BitValue
import NikitaFirmware.Foundations.Checked
import NikitaFirmware.Nfc.BitBuffer

/-!
# Bit buffers in memory

`lib/toolbox/bit_buffer.c` with its accesses: an operation ends with a new state of the buffer, with
a failed `furi_check`, or with an access outside an array of a buffer. Sizes and indices are numbers;
where unsigned arithmetic on them can wrap around, they are words. The arrays of a caller are as
long as it says.
-/

namespace NikitaFirmware.Toolbox
open Foundations Foundations.Checked List
open Nfc (BitBuffer)

namespace BitMemory

/-- The bytes of `RAM1`, in which the heap lies; an allocation that does not fit crashes. -/
def ramSize : Nat := 0x2FFF8

def alloc (capacityBytes : Nat) : Result BitBuffer := do
  check (0 < capacityBytes)
  check (capacityBytes < ramSize)
  return BitBuffer.alloc capacityBytes

def copy (buf other : BitBuffer) : Result BitBuffer := do
  check (other.sizeBits ≤ buf.capacityBytes * 8)
  let bytes ← access (Cells.read other.data 0 other.sizeBytes)
  let data ← access (Cells.write buf.data 0 bytes)
  return { buf with data, sizeBits := other.sizeBits }

def copyRight (buf other : BitBuffer) (startIndex : Nat) : Result BitBuffer := do
  check (startIndex < other.sizeBytes)
  check (other.sizeBytes - startIndex ≤ buf.capacityBytes)
  let bytes ← access (Cells.read other.data startIndex (other.sizeBytes - startIndex))
  let data ← access (Cells.write buf.data 0 bytes)
  return { buf with data, sizeBits := other.sizeBits - startIndex * 8 }

def copyLeft (buf other : BitBuffer) (endIndex : Nat) : Result BitBuffer := do
  check (endIndex ≤ buf.capacityBytes)
  check (endIndex ≤ other.sizeBytes)
  let bytes ← access (Cells.read other.data 0 endIndex)
  let data ← access (Cells.write buf.data 0 bytes)
  return { buf with data, sizeBits := endIndex * 8 }

def copyBytes (buf : BitBuffer) (bytes : Bytes) : Result BitBuffer := do
  check (bytes.length ≤ buf.capacityBytes)
  let data ← access (Cells.write buf.data 0 bytes)
  return { buf with data, sizeBits := bytes.length * 8 }

def copyBits (buf : BitBuffer) (source : Bytes) (sizeBits : Nat) : Result BitBuffer := do
  check (sizeBits ≤ buf.capacityBytes * 8)
  let bytes := (List.range ((sizeBits + 7) / 8)).map (source.getD · 0)
  let data ← access (Cells.write buf.data 0 bytes)
  return { buf with data, sizeBits }

def bitByte (bit : Bool) : UInt8 := if bit then 1 else 0

/-- A parity bit of a byte, which is assigned where the shift is zero and added elsewhere. -/
def putParity (parity : Bytes) (index shift : Nat) (bit : Bool) : Result Bytes :=
  if shift = 0 then access (Cells.write parity (index / 8) [bitByte bit])
  else do
    let byte ← access parity[index / 8]?
    access (Cells.write parity (index / 8) [byte ||| UInt8.ofNat ((bitByte bit).toNat <<< shift)])

/-- The loop of `bit_buffer_copy_bytes_with_parity`, with the number of bytes to come. -/
def copyParityLoop (source : Bytes) : Nat → Nat → Nat → BitBuffer → Result (BitBuffer × Nat)
  | 0, _, currByte, buf => .ok (buf, currByte)
  | count + 1, bitsProcessed, currByte, buf => do
    let lower := source.getD (bitsProcessed / 8) 0
    let upper := source.getD (bitsProcessed / 8 + 1) 0
    let byte := UInt8.ofNat (lower.toNat >>> (bitsProcessed % 8)) |||
      UInt8.ofNat (upper.toNat <<< (8 - bitsProcessed % 8))
    let data ← access (Cells.write buf.data currByte [byte])
    let parity ← putParity buf.parity currByte (bitsProcessed % 8)
      (upper.toNat.testBit (bitsProcessed % 8))
    copyParityLoop source count (bitsProcessed + 9) (currByte + 1) { buf with data, parity }

def copyBytesWithParity (buf : BitBuffer) (source : Bytes) (sizeBits : Nat) : Result BitBuffer :=
  if sizeBits < 9 then do
    let data ← access (Cells.write buf.data 0 [source.getD 0 0])
    return { buf with data, sizeBits }
  else do
    check (sizeBits % 9 = 0)
    -- the loop adds nine to the bits processed until they are all the bits
    let (buf, currByte) ← copyParityLoop source (sizeBits / 9) 0 0 buf
    return { buf with sizeBits := currByte * 8 }

def writeBytes (buf : BitBuffer) (sizeBytes : Nat) : Result Bytes := do
  check (buf.sizeBytes ≤ sizeBytes)
  access (Cells.read buf.data 0 buf.sizeBytes)

/-- The loop of `bit_buffer_write_bytes_with_parity`, with the number of bytes to come;
`curr_bit_pos` has 16 bits. -/
def writeParityLoop (buf : BitBuffer) : Nat → Nat → Nat → Bytes → Result (Bytes × Nat)
  | 0, _, currBitPos, bitstream => .ok (bitstream, currBitPos)
  | count + 1, i, currBitPos, bitstream => do
    let parityByte ← access buf.parity[i / 8]?
    let nextParBit := bitByte (parityByte.toNat.testBit (i % 8))
    let byte ← access buf.data[i]?
    if currBitPos % 8 = 0 then do
      let bitstream ← access (Cells.write bitstream (currBitPos / 8) [byte])
      let currBitPos := (currBitPos + 8) % 65536
      let bitstream ← access (Cells.write bitstream (currBitPos / 8) [nextParBit])
      writeParityLoop buf count (i + 1) ((currBitPos + 1) % 65536) bitstream
    else do
      let shift := currBitPos % 8
      let old ← access bitstream[currBitPos / 8]?
      let bitstream ← access (Cells.write bitstream (currBitPos / 8)
        [old ||| UInt8.ofNat (byte.toNat <<< shift)])
      let bitstream ← access (Cells.write bitstream (currBitPos / 8 + 1)
        [UInt8.ofNat (byte.toNat >>> (8 - shift)) ||| UInt8.ofNat (nextParBit.toNat <<< shift)])
      writeParityLoop buf count (i + 1) ((currBitPos + 9) % 65536) bitstream

/-- `bit_buffer_write_bytes_with_parity` to an array: the array, and how many bits were written. -/
def writeBytesWithParity (buf : BitBuffer) (dest : Bytes) : Result (Bytes × Nat) := do
  check ((buf.sizeBytes * 9 + 8) / 8 ≤ dest.length)
  writeParityLoop buf buf.sizeBytes 0 0 dest

def writeBytesMid (buf : BitBuffer) (startIndex sizeBytes : UInt32) : Result Bytes := do
  check ((startIndex + sizeBytes).toNat ≤ buf.sizeBytes)
  access (Cells.read buf.data startIndex.toNat sizeBytes.toNat)

def startsWithByte (buf : BitBuffer) (byte : UInt8) : Result Bool :=
  if buf.sizeBytes = 0 then .ok false
  else do
    let first ← access buf.data[0]?
    return first = byte

def getByte (buf : BitBuffer) (index : Nat) : Result UInt8 := do
  check (index < buf.capacityBytes)
  access buf.data[index]?

/-- `bit_buffer_get_byte_from_bit`, which reads the byte behind the one of the bit whatever the
offset. -/
def getByteFromBit (buf : BitBuffer) (indexBits : Nat) : Result UInt8 := do
  check (indexBits < buf.capacityBytes * 8)
  let lower ← access buf.data[indexBits / 8]?
  let upper ← access buf.data[indexBits / 8 + 1]?
  return UInt8.ofNat (lower.toNat >>> (indexBits % 8)) |||
    UInt8.ofNat (upper.toNat <<< (8 - indexBits % 8))

def setByte (buf : BitBuffer) (index : Nat) (byte : UInt8) : Result BitBuffer := do
  check (index < buf.sizeBytes)
  let data ← access (Cells.write buf.data index [byte])
  return { buf with data }

def setByteWithParity (buf : BitBuffer) (index : Nat) (byte : UInt8) (parity : Bool) :
    Result BitBuffer := do
  check (index < buf.sizeBits / 8)
  let data ← access (Cells.write buf.data index [byte])
  let parity ← putParity buf.parity index (index % 8) parity
  return { buf with data, parity }

def setSize (buf : BitBuffer) (newSize : Nat) : Result BitBuffer := do
  check (newSize ≤ buf.capacityBytes * 8)
  return { buf with sizeBits := newSize }

def setSizeBytes (buf : BitBuffer) (newSizeBytes : Nat) : Result BitBuffer := do
  check (newSizeBytes ≤ buf.capacityBytes)
  return { buf with sizeBits := newSizeBytes * 8 }

/-- `bit_buffer_append_right`; the differences are words and can wrap around. -/
def appendRight (buf other : BitBuffer) (startIndex : UInt32) : Result BitBuffer := do
  let otherSizeBytes := UInt32.ofNat other.sizeBytes - startIndex
  check ((UInt32.ofNat buf.sizeBytes + otherSizeBytes).toNat ≤ buf.capacityBytes)
  let bytes ← access (Cells.read other.data startIndex.toNat otherSizeBytes.toNat)
  let data ← access (Cells.write buf.data buf.sizeBytes bytes)
  return { buf with
    data
    sizeBits := (UInt32.ofNat buf.sizeBits + (UInt32.ofNat other.sizeBits - startIndex * 8)).toNat }

def append (buf other : BitBuffer) : Result BitBuffer := appendRight buf other 0

def appendByte (buf : BitBuffer) (byte : UInt8) : Result BitBuffer := do
  check (buf.sizeBytes + 1 ≤ buf.capacityBytes)
  let data ← access (Cells.write buf.data buf.sizeBytes [byte])
  return { buf with data, sizeBits := (buf.sizeBytes + 1) * 8 }

def appendBytes (buf : BitBuffer) (bytes : Bytes) : Result BitBuffer := do
  check (buf.sizeBytes + bytes.length ≤ buf.capacityBytes)
  let data ← access (Cells.write buf.data buf.sizeBytes bytes)
  return { buf with data, sizeBits := buf.sizeBits + bytes.length * 8 }

def appendBit (buf : BitBuffer) (bit : Bool) : Result BitBuffer := do
  check (buf.sizeBytes ≤ buf.capacityBytes - if buf.sizeBits % 8 ≠ 0 then 0 else 1)
  if bit then do
    let byte ← access buf.data[buf.sizeBits / 8]?
    let data ← access (Cells.write buf.data (buf.sizeBits / 8)
      [byte ||| UInt8.ofNat (1 <<< (buf.sizeBits % 8))])
    return { buf with data, sizeBits := buf.sizeBits + 1 }
  else return { buf with sizeBits := buf.sizeBits + 1 }

structure Sized (buf : BitBuffer) : Prop where
  pos : 0 < buf.capacityBytes
  ram : buf.capacityBytes < ramSize
  parity : buf.parity.length = (buf.capacityBytes + 7) / 8
  size : buf.sizeBits ≤ buf.capacityBytes * 8

theorem Sized.of_lengths {buf buf' : BitBuffer} (h : Sized buf)
    (hdata : buf'.data.length = buf.data.length) (hparity : buf'.parity.length = buf.parity.length)
    (hsize : buf'.sizeBits ≤ buf.capacityBytes * 8) : Sized buf' := by
  have hcap : buf'.capacityBytes = buf.capacityBytes := hdata
  constructor
  · rw [hcap]; exact h.pos
  · rw [hcap]; exact h.ram
  · rw [hparity, hcap]; exact h.parity
  · rw [hcap]; exact hsize

open Foundations.BitArray

variable {buf : BitBuffer} {source bitstream : Bytes} {n i k : Nat}

/-- The byte that starts at a bit of the stream. -/
def byteAt (source : Bytes) (pos : Nat) : UInt8 :=
  UInt8.ofNat ((source.getD (pos / 8) 0).toNat >>> (pos % 8)) |||
    UInt8.ofNat ((source.getD (pos / 8 + 1) 0).toNat <<< (8 - pos % 8))

theorem testBit_byteAt (source : Bytes) (pos : Nat) (hk : k < 8) :
    (byteAt source pos).toNat.testBit k = low source (pos + k) := by
  rw [byteAt, testBit_or, testBit_ofNat_of_lt hk, testBit_ofNat_of_lt hk, Nat.testBit_shiftRight,
    Nat.testBit_shiftLeft]
  by_cases hlow : pos % 8 + k < 8
  · have hdiv : (pos + k) / 8 = pos / 8 := by omega
    have hmod : (pos + k) % 8 = pos % 8 + k := by omega
    have hnot : ¬ k ≥ 8 - pos % 8 := by omega
    rw [low, hdiv, hmod, decide_eq_false hnot, Bool.false_and, Bool.or_false]
  · have hdiv : (pos + k) / 8 = pos / 8 + 1 := by omega
    have hmod : (pos + k) % 8 = k - (8 - pos % 8) := by omega
    have hge : k ≥ 8 - pos % 8 := by omega
    rw [low, hdiv, hmod, decide_eq_true hge, Bool.true_and, testBit_of_le _ (Nat.le_of_not_lt hlow),
      Bool.false_or]

theorem parityAt_eq (source : Bytes) (pos : Nat) :
    (source.getD (pos / 8 + 1) 0).toNat.testBit (pos % 8) = low source (pos + 8) := by
  have hdiv : (pos + 8) / 8 = pos / 8 + 1 := by omega
  have hmod : (pos + 8) % 8 = pos % 8 := by omega
  rw [low, hdiv, hmod]

/-- What the first `n` groups of nine bits of a stream leave in a buffer. -/
structure Taken (source : Bytes) (n : Nat) (buf : BitBuffer) : Prop where
  data : ∀ j < n, ∀ k < 8, low buf.data (8 * j + k) = low source (9 * j + k)
  parity : ∀ j < n, low buf.parity j = low source (9 * j + 8)
  clear : n % 8 ≠ 0 → ∀ j, n ≤ j → j / 8 = n / 8 → low buf.parity j = false

theorem taken_zero (source : Bytes) (buf : BitBuffer) : Taken source 0 buf where
  data _ h := absurd h (Nat.not_lt_zero _)
  parity _ h := absurd h (Nat.not_lt_zero _)
  clear h := absurd rfl h

def withParity (parity : Bytes) (i : Nat) (bit : Bool) : Bytes :=
  parity.set (i / 8) (if i % 8 = 0 then bitByte bit else
    parity.getD (i / 8) 0 ||| UInt8.ofNat ((bitByte bit).toNat <<< (i % 8)))

@[simp] theorem length_withParity (parity : Bytes) (i : Nat) (bit : Bool) :
    (withParity parity i bit).length = parity.length := length_set

theorem putParity_eq {parity : Bytes} {shift : Nat} (h : i / 8 < parity.length)
    (hshift : shift = i % 8) (bit : Bool) :
    putParity parity i shift bit = .ok (withParity parity i bit) := by
  subst hshift
  rw [putParity, withParity]
  by_cases hz : i % 8 = 0
  · rw [if_pos hz, if_pos hz, access_write h]
  · rw [if_neg hz, if_neg hz, access_get h]
    exact access_write h _

theorem testBit_bitByte (bit : Bool) (k : Nat) :
    (bitByte bit).toNat.testBit k = (decide (k = 0) && bit) := by
  cases bit with
  | false => rw [Bool.and_false]; exact Nat.zero_testBit k
  | true =>
    rw [Bool.and_true]
    cases k with
    | zero => rfl
    | succ k => exact (Nat.testBit_succ 1 k).trans (Nat.zero_testBit k)

theorem testBit_bitByte_shift {shift : Nat} (bit : Bool) (hk : k < 8) :
    (UInt8.ofNat ((bitByte bit).toNat <<< shift)).toNat.testBit k = (decide (k = shift) && bit) := by
  rw [testBit_ofNat_of_lt hk, Nat.testBit_shiftLeft, testBit_bitByte]
  by_cases hge : k ≥ shift
  · have hiff : k - shift = 0 ↔ k = shift := by omega
    rw [decide_eq_true hge, Bool.true_and, decide_eq_decide.mpr hiff]
  · have hne : ¬ k = shift := by omega
    rw [decide_eq_false hge, decide_eq_false hne, Bool.false_and, Bool.false_and]

theorem low_putParity {parity : Bytes} (h : i / 8 < parity.length) (bit : Bool)
    (hclear : i % 8 ≠ 0 → ∀ j, i ≤ j → j / 8 = i / 8 → low parity j = false) (hk : k / 8 = i / 8) :
    low (withParity parity i bit) k = if k < i then low parity k else decide (k = i) && bit := by
  have hplace : k % 8 = i % 8 ↔ k = i := by omega
  rw [withParity, low_set, if_pos ⟨hk, h⟩]
  by_cases hz : i % 8 = 0
  · rw [if_pos hz, if_neg (by omega), testBit_bitByte, ← hz, decide_eq_decide.mpr hplace]
  · have hold : (parity.getD (i / 8) 0).toNat.testBit (k % 8) = low parity k := by rw [low, hk]
    rw [if_neg hz, testBit_or, hold, testBit_bitByte_shift bit (Nat.mod_lt k (by decide)),
      decide_eq_decide.mpr hplace]
    by_cases hlt : k < i
    · rw [if_pos hlt, decide_eq_false (Nat.ne_of_lt hlt), Bool.false_and, Bool.or_false]
    · rw [if_neg hlt, hclear hz k (Nat.le_of_not_lt hlt) hk, Bool.false_or]

theorem Taken.step (h : Taken source n buf) (hdata : n < buf.data.length)
    (hparity : n / 8 < buf.parity.length) :
    Taken source (n + 1) { buf with
      data := buf.data.set n (byteAt source (9 * n))
      parity := withParity buf.parity n (low source (9 * n + 8)) } where
  data j hj k hk := by
    show low (buf.data.set n _) _ = _
    rw [low_set]
    by_cases hn : j = n
    · subst hn
      have hdiv : (8 * j + k) / 8 = j := by omega
      have hmod : (8 * j + k) % 8 = k := by omega
      rw [if_pos ⟨hdiv, hdata⟩, hmod, testBit_byteAt source _ hk]
    · rw [if_neg (by omega), h.data j (by omega) k hk]
  parity j hj := by
    show low (withParity buf.parity n _) j = _
    by_cases hbyte : j / 8 = n / 8
    · rw [low_putParity hparity _ h.clear hbyte]
      by_cases hlt : j < n
      · rw [if_pos hlt, h.parity j hlt]
      · have hn : j = n := by omega
        rw [if_neg hlt, decide_eq_true hn, Bool.true_and, hn]
    · rw [withParity, low_set, if_neg fun hset => hbyte hset.1, h.parity j (by omega)]
  clear hmod j hj hbyte := by
    show low (withParity buf.parity n _) j = _
    rw [low_putParity hparity _ h.clear (by omega), if_neg (by omega),
      decide_eq_false (by omega), Bool.false_and]

/-- What the loop that takes the bits apart leaves behind `count` more bytes. -/
theorem copyParityLoop_spec (h : Taken source n buf) (count : Nat)
    (hdata : n + count ≤ buf.data.length) (hparity : buf.data.length ≤ 8 * buf.parity.length) :
    ∃ buf', copyParityLoop source count (9 * n) n buf = .ok (buf', n + count) ∧
      Taken source (n + count) buf' ∧ buf'.data.length = buf.data.length ∧
      buf'.parity.length = buf.parity.length := by
  induction count generalizing n buf with
  | zero => exact ⟨buf, rfl, h, rfl, rfl⟩
  | succ count ih =>
    have hbyte : n < buf.data.length := by omega
    have hbits : n / 8 < buf.parity.length := by omega
    have hshift : 9 * n % 8 = n % 8 := by omega
    obtain ⟨buf', hloop, htaken, hlen, hlen'⟩ := ih (h.step hbyte hbits)
      (by rw [length_set]; omega) (by rw [length_set, length_withParity]; exact hparity)
    rw [length_set] at hlen
    rw [length_withParity] at hlen'
    refine ⟨buf', ?_, ?_, hlen, hlen'⟩
    · rw [copyParityLoop, parityAt_eq]
      simp only [access_write hbyte, putParity_eq hbits hshift]
      rw [Nat.add_assoc, Nat.add_comm 1] at hloop
      exact hloop
    · rw [Nat.add_assoc, Nat.add_comm 1] at htaken
      exact htaken

def withGroup (bitstream : Bytes) (pos : Nat) (byte : UInt8) (parity : Bool) : Bytes :=
  if pos % 8 = 0 then (bitstream.set (pos / 8) byte).set (pos / 8 + 1) (bitByte parity)
  else
    (bitstream.set (pos / 8)
      (bitstream.getD (pos / 8) 0 ||| UInt8.ofNat (byte.toNat <<< (pos % 8)))).set (pos / 8 + 1)
        (UInt8.ofNat (byte.toNat >>> (8 - pos % 8)) |||
          UInt8.ofNat ((bitByte parity).toNat <<< (pos % 8)))

@[simp] theorem length_withGroup (bitstream : Bytes) (pos : Nat) (byte : UInt8) (parity : Bool) :
    (withGroup bitstream pos byte parity).length = bitstream.length := by
  unfold withGroup
  split <;> rw [length_set, length_set]

theorem low_withGroup {pos : Nat} {byte : UInt8} {parity : Bool}
    (h : pos / 8 + 1 < bitstream.length)
    (hclear : pos % 8 ≠ 0 → ∀ k, pos ≤ k → k / 8 = pos / 8 → low bitstream k = false) (k : Nat) :
    low (withGroup bitstream pos byte parity) k = if k < pos then low bitstream k
      else if k < pos + 8 then byte.toNat.testBit (k - pos)
      else if k / 8 = pos / 8 + 1 then decide (k = pos + 8) && parity
      else low bitstream k := by
  have hlt : k % 8 < 8 := Nat.mod_lt k (by decide)
  by_cases hz : pos % 8 = 0
  · rw [withGroup, if_pos hz, low_set, low_set, length_set]
    by_cases hnext : k / 8 = pos / 8 + 1
    · have hiff : k % 8 = 0 ↔ k = pos + 8 := by omega
      rw [if_pos ⟨hnext, h⟩, if_neg (by omega), if_neg (by omega), if_pos hnext, testBit_bitByte,
        decide_eq_decide.mpr hiff]
    · rw [if_neg fun hand => hnext hand.1]
      by_cases hbyte : k / 8 = pos / 8
      · have hplace : k % 8 = k - pos := by omega
        rw [if_pos ⟨hbyte, by omega⟩, if_neg (by omega), if_pos (by omega), hplace]
      · rw [if_neg fun hand => hbyte hand.1, if_neg hnext]
        split
        · rfl
        · rw [if_neg (by omega)]
  · rw [withGroup, if_neg hz, low_set, low_set, length_set]
    by_cases hnext : k / 8 = pos / 8 + 1
    · have hiff : k % 8 = pos % 8 ↔ k = pos + 8 := by omega
      rw [if_pos ⟨hnext, h⟩, if_neg (by omega), if_pos hnext, testBit_or, testBit_ofNat_of_lt hlt,
        Nat.testBit_shiftRight, testBit_bitByte_shift parity hlt, decide_eq_decide.mpr hiff]
      by_cases hend : k < pos + 8
      · have hplace : 8 - pos % 8 + k % 8 = k - pos := by omega
        rw [if_pos hend, decide_eq_false (by omega), Bool.false_and, Bool.or_false, hplace]
      · rw [if_neg hend, testBit_of_le byte (by omega), Bool.false_or]
    · rw [if_neg fun hand => hnext hand.1]
      by_cases hbyte : k / 8 = pos / 8
      · have hold : (bitstream.getD (pos / 8) 0).toNat.testBit (k % 8) = low bitstream k := by
          rw [low, hbyte]
        rw [if_pos ⟨hbyte, by omega⟩, testBit_or, testBit_ofNat_of_lt hlt, Nat.testBit_shiftLeft, hold]
        by_cases hfront : k < pos
        · rw [if_pos hfront, decide_eq_false (by omega), Bool.false_and, Bool.or_false]
        · have hplace : k % 8 - pos % 8 = k - pos := by omega
          rw [if_neg hfront, if_pos (by omega), hclear hz k (Nat.le_of_not_lt hfront) hbyte,
            decide_eq_true (by omega), Bool.true_and, Bool.false_or, hplace]
      · rw [if_neg fun hand => hbyte hand.1, if_neg hnext]
        split
        · rfl
        · rw [if_neg (by omega)]

structure Put (buf : BitBuffer) (n : Nat) (bitstream : Bytes) : Prop where
  data : ∀ j < n, ∀ k < 8, low bitstream (9 * j + k) = low buf.data (8 * j + k)
  parity : ∀ j < n, low bitstream (9 * j + 8) = low buf.parity j
  clear : 9 * n % 8 ≠ 0 → ∀ k, 9 * n ≤ k → k / 8 = 9 * n / 8 → low bitstream k = false

theorem put_zero (buf : BitBuffer) (bitstream : Bytes) : Put buf 0 bitstream where
  data _ h := absurd h (Nat.not_lt_zero _)
  parity _ h := absurd h (Nat.not_lt_zero _)
  clear h := absurd rfl h

theorem Put.step (h : Put buf n bitstream) (hlen : 9 * n / 8 + 1 < bitstream.length) :
    Put buf (n + 1) (withGroup bitstream (9 * n) (buf.data.getD n 0) (low buf.parity n)) where
  data j hj k hk := by
    rw [low_withGroup hlen h.clear]
    by_cases hn : j = n
    · subst hn
      have hplace : 9 * j + k - 9 * j = k := by omega
      rw [if_neg (by omega), if_pos (by omega), hplace, low_byte _ _ hk]
    · rw [if_pos (by omega), h.data j (by omega) k hk]
  parity j hj := by
    rw [low_withGroup hlen h.clear]
    by_cases hn : j = n
    · subst hn
      rw [if_neg (by omega), if_neg (by omega), if_pos (by omega), decide_eq_true rfl,
        Bool.true_and]
    · rw [if_pos (by omega), h.parity j (by omega)]
  clear hmod k hk hbyte := by
    rw [low_withGroup hlen h.clear, if_neg (by omega), if_neg (by omega), if_pos (by omega),
      decide_eq_false (by omega), Bool.false_and]

theorem writeParityLoop_succ {pos : Nat} (count : Nat) (hdata : i < buf.data.length)
    (hparity : i / 8 < buf.parity.length) (hlen : pos / 8 + 1 < bitstream.length)
    (hpos : pos + 9 < 65536) :
    writeParityLoop buf (count + 1) i pos bitstream = writeParityLoop buf count (i + 1) (pos + 9)
        (withGroup bitstream pos (buf.data.getD i 0) (low buf.parity i)) := by
  have hfirst : pos / 8 < bitstream.length := by omega
  rw [writeParityLoop]
  by_cases hz : pos % 8 = 0
  · have hnext : (pos + 8) % 65536 / 8 = pos / 8 + 1 := by omega
    have hend : ((pos + 8) % 65536 + 1) % 65536 = pos + 9 := by omega
    have hsecond : pos / 8 + 1 < (bitstream.set (pos / 8) (buf.data.getD i 0)).length := by
      rw [length_set]
      exact hlen
    simp only [access_get hparity, access_get hdata, if_pos hz, access_write hfirst, hnext, hend]
    rw [withGroup, if_pos hz]
    exact access_write_bind hsecond _ (writeParityLoop buf count (i + 1) (pos + 9))
  · have hsecond (byte : UInt8) : pos / 8 + 1 < (bitstream.set (pos / 8) byte).length := by
      rw [length_set]
      exact hlen
    have hend : (pos + 9) % 65536 = pos + 9 := by omega
    simp only [access_get hparity, access_get hdata, if_neg hz, access_get hfirst,
      access_write hfirst, hend]
    rw [withGroup, if_neg hz]
    exact access_write_bind (hsecond _) _ (writeParityLoop buf count (i + 1) (pos + 9))

/-- What the loop that puts the bits together leaves behind `count` more bytes. -/
theorem writeParityLoop_spec (h : Put buf n bitstream) (count : Nat)
    (hdata : n + count ≤ buf.data.length) (hparity : buf.data.length ≤ 8 * buf.parity.length)
    (hlen : (9 * (n + count) + 8) / 8 ≤ bitstream.length) (hpos : 9 * (n + count) < 65536) :
    ∃ bitstream', writeParityLoop buf count n (9 * n) bitstream =
        .ok (bitstream', 9 * (n + count)) ∧ Put buf (n + count) bitstream' := by
  induction count generalizing n bitstream with
  | zero => exact ⟨bitstream, rfl, h⟩
  | succ count ih =>
    have hroom : 9 * n / 8 + 1 < bitstream.length := by omega
    have hcount : n + 1 + count = n + (count + 1) := by omega
    obtain ⟨bitstream', hloop, hput⟩ := ih (h.step hroom) (by omega)
      (by rw [length_withGroup]; omega) (by omega)
    rw [hcount] at hloop hput
    refine ⟨bitstream', ?_, hput⟩
    rw [writeParityLoop_succ count (by omega) (by omega) hroom (by omega)]
    exact hloop

theorem Sized.length_le (h : Sized buf) : buf.data.length ≤ 8 * buf.parity.length := by
  have hparity := h.parity
  unfold BitBuffer.capacityBytes at hparity
  omega

theorem writeBytesWithParity_spec (h : Sized buf) (hsize : buf.sizeBits = n * 8) (hn : n ≤ 7281)
    {dest : Bytes} (hdest : (9 * n + 8) / 8 ≤ dest.length) :
    ∃ bitstream, writeBytesWithParity buf dest = .ok (bitstream, 9 * n) ∧ Put buf n bitstream := by
  have hbytes := BitBuffer.sizeBytes_of_sizeBits hsize
  have hdata : 0 + n ≤ buf.data.length := by
    have hle := h.size
    unfold BitBuffer.capacityBytes at hle
    omega
  obtain ⟨bitstream, hloop, hput⟩ := writeParityLoop_spec (put_zero buf dest) n hdata h.length_le
    (by omega) (by omega)
  rw [Nat.zero_add] at hloop hput
  refine ⟨bitstream, ?_, hput⟩
  have hcheck : (n * 9 + 8) / 8 ≤ dest.length := by omega
  rw [writeBytesWithParity, hbytes, check, if_pos hcheck]
  exact hloop

theorem copyBytesWithParity_spec (h : Sized buf) (source : Bytes) (hpos : 1 ≤ n)
    (hn : n ≤ buf.capacityBytes) :
    ∃ buf', copyBytesWithParity buf source (9 * n) = .ok buf' ∧ Taken source n buf' ∧
      buf'.sizeBits = n * 8 ∧ Sized buf' := by
  obtain ⟨buf', hloop, htaken, hlen, hlen'⟩ := copyParityLoop_spec (taken_zero source buf) n
    (by rw [Nat.zero_add]; exact hn) h.length_le
  rw [Nat.zero_add] at hloop htaken
  refine ⟨{ buf' with sizeBits := n * 8 }, ?_, ⟨htaken.data, htaken.parity, htaken.clear⟩, rfl, ?_⟩
  · have hcount : 9 * n / 9 = n := Nat.mul_div_cancel_left n (by decide)
    have hloop' : copyParityLoop source n 0 0 buf = .ok (buf', n) := hloop
    rw [copyBytesWithParity, if_neg (by omega), check, if_pos (Nat.mul_mod_right 9 n), hcount,
      hloop']
    rfl
  · exact h.of_lengths hlen hlen' (Nat.mul_le_mul_right 8 hn)

/-- A buffer of up to 7281 bytes that is written with its parity bits is read back with them; and a
stream of up to as many groups of nine bits that is read is written back bit by bit. -/
theorem parityFraming_roundTrip :
    (∀ (buf target : BitBuffer) (dest : Bytes) (n : Nat), Sized buf → Sized target →
      buf.sizeBits = n * 8 → 1 ≤ n → n ≤ 7281 → (9 * n + 8) / 8 ≤ dest.length →
      n ≤ target.capacityBytes →
      ∃ bitstream bitsWritten target',
        writeBytesWithParity buf dest = .ok (bitstream, bitsWritten) ∧
          copyBytesWithParity target bitstream bitsWritten = .ok target' ∧
          target'.sizeBits = n * 8 ∧ target'.data.take n = buf.data.take n ∧
          ∀ i < n, low target'.parity i = low buf.parity i) ∧
    ∀ (stream dest : Bytes) (buf : BitBuffer) (n : Nat), Sized buf → 1 ≤ n → n ≤ 7281 →
      9 * n ≤ 8 * stream.length → n ≤ buf.capacityBytes → (9 * n + 8) / 8 ≤ dest.length →
      ∃ buf' bitstream, copyBytesWithParity buf stream (9 * n) = .ok buf' ∧
        writeBytesWithParity buf' dest = .ok (bitstream, 9 * n) ∧
        ∀ k < 9 * n, low bitstream k = low stream k := by
  constructor
  · intro buf target dest n hbuf htarget hsize hpos hn hdest hroom
    obtain ⟨bitstream, hwrite, hput⟩ := writeBytesWithParity_spec hbuf hsize hn hdest
    obtain ⟨target', hcopy, htaken, hsize', hsized⟩ :=
      copyBytesWithParity_spec htarget bitstream hpos hroom
    refine ⟨bitstream, 9 * n, target', hwrite, hcopy, hsize', ?_, fun i hi => ?_⟩
    · have hle : n ≤ target'.data.length := Nat.le_of_mul_le_mul_right (hsize' ▸ hsized.size) (by decide)
      have hle' : n ≤ buf.data.length := Nat.le_of_mul_le_mul_right (hsize ▸ hbuf.size) (by decide)
      refine take_ext hle hle' fun k hk => ?_
      have hbyte : 8 * (k / 8) + k % 8 = k := Nat.div_add_mod k 8
      rw [← hbyte, htaken.data _ (by omega) _ (Nat.mod_lt k (by decide)),
        hput.data _ (by omega) _ (Nat.mod_lt k (by decide))]
    · rw [htaken.parity i hi, hput.parity i hi]
  · intro stream dest buf n hbuf hpos hn _ hroom hdest
    obtain ⟨buf', hcopy, htaken, hsize', hsized⟩ :=
      copyBytesWithParity_spec hbuf stream hpos hroom
    obtain ⟨bitstream, hwrite, hput⟩ := writeBytesWithParity_spec hsized hsize' hn hdest
    refine ⟨buf', bitstream, hcopy, hwrite, fun k hk => ?_⟩
    have hgroup : 9 * (k / 9) + k % 9 = k := Nat.div_add_mod k 9
    rw [← hgroup]
    by_cases hbit : k % 9 < 8
    · rw [hput.data _ (by omega) _ hbit, htaken.data _ (by omega) _ hbit]
    · have hlast : k % 9 = 8 := by omega
      rw [hlast, hput.parity _ (by omega), htaken.parity _ (by omega)]

example : writeBytesWithParity ⟨[0xA5, 0x3C], [0x02], 16⟩ [0, 0, 0] = .ok ([0xA5, 0x78, 0x02], 18) ∧
    copyBytesWithParity ⟨[0, 0], [0xFF], 0⟩ [0xA5, 0x78, 0x02] 18 =
      .ok ⟨[0xA5, 0x3C], [0x02], 16⟩ := ⟨rfl, rfl⟩

end BitMemory
end NikitaFirmware.Toolbox
