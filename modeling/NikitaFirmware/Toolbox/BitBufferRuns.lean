import NikitaFirmware.Foundations.Machine
import NikitaFirmware.Toolbox.ParityFraming

/-!
# Runs of operations on bit buffers

Every operation on buffers whose sizes fit their arrays ends without an access outside them and
leaves such buffers, where its arguments and the buffers meet a condition for the operations that
check too little. What it leaves is what the operation on lists does (`Nfc.BitBuffer`).
-/

namespace NikitaFirmware.Toolbox
open Foundations Foundations.BitArray Foundations.Checked List Function
open Nfc (BitBuffer)

namespace BitMemory

variable {buf other : BitBuffer} {src : Bytes} {offset n i : Nat}

theorem sizeBytes_eq (buf : BitBuffer) : buf.sizeBytes = (buf.sizeBits + 7) / 8 := by
  unfold BitBuffer.sizeBytes
  split <;> omega

theorem Sized.sizeBytes_le (h : Sized buf) : buf.sizeBytes ≤ buf.capacityBytes := by
  have hsize := h.size
  rw [sizeBytes_eq]
  omega

theorem write_memcpy (h : offset + src.length ≤ buf.capacityBytes) :
    Cells.write buf.data offset src = some (Nfc.memcpy buf.data offset src) := Cells.write_of_le h

theorem Sized.write (h : Sized buf) (hfit : offset + src.length ≤ buf.capacityBytes) {size : Nat}
    (hsize : size ≤ buf.capacityBytes * 8) :
    Sized { buf with data := Nfc.memcpy buf.data offset src, sizeBits := size } :=
  h.of_lengths (BitBuffer.length_memcpy hfit) rfl hsize

theorem Sized.resize (h : Sized buf) {size : Nat} (hsize : size ≤ buf.capacityBytes * 8) :
    Sized { buf with sizeBits := size } := h.of_lengths rfl rfl hsize

theorem alloc_ends (capacityBytes : Nat) : Ends (alloc capacityBytes) Sized := by
  refine ends_check_bind fun hpos => ends_check_bind fun hram => ends_pure ?_
  have hcap : (BitBuffer.alloc capacityBytes).capacityBytes = capacityBytes :=
    length_replicate
  exact ⟨hcap.symm ▸ hpos, hcap.symm ▸ hram, by rw [hcap]; exact length_replicate,
    Nat.zero_le _⟩

theorem reset_sized (h : Sized buf) : Sized buf.reset :=
  h.of_lengths length_replicate length_replicate (Nat.zero_le _)

theorem read_used (h : Sized other) (start count : Nat) (hle : start + count ≤ other.sizeBytes) :
    Cells.read other.data start count = some ((other.data.drop start).take count) ∧
      ((other.data.drop start).take count).length = count := by
  have hcap := h.sizeBytes_le
  have hdata : other.capacityBytes = other.data.length := rfl
  refine ⟨Cells.read_of_le (by omega), ?_⟩
  rw [length_take, length_drop]
  omega

theorem copy_ends (h : Sized buf) (ho : Sized other) :
    Ends (copy buf other) fun buf' => buf.copy other = some buf' ∧ Sized buf' := by
  refine ends_check_bind fun hsize => ?_
  obtain ⟨hread, hlen⟩ := read_used ho 0 other.sizeBytes (by omega)
  have hfit : 0 + ((other.data.drop 0).take other.sizeBytes).length ≤ buf.capacityBytes := by
    rw [hlen, sizeBytes_eq]
    omega
  refine ends_access_bind hread (ends_access_bind (write_memcpy hfit) (ends_pure ⟨?_, ?_⟩))
  · rw [BitBuffer.copy, if_neg (by omega)]
    rfl
  · exact h.write hfit hsize

theorem copyRight_ends (h : Sized buf) (ho : Sized other) (startIndex : Nat) :
    Ends (copyRight buf other startIndex) fun buf' =>
      buf.copyRight other startIndex = some buf' ∧ Sized buf' := by
  refine ends_check_bind fun hstart => ends_check_bind fun hroom => ?_
  obtain ⟨hread, hlen⟩ := read_used ho startIndex (other.sizeBytes - startIndex) (by omega)
  have hfit : 0 + ((other.data.drop startIndex).take (other.sizeBytes - startIndex)).length ≤
      buf.capacityBytes := by
    omega
  refine ends_access_bind hread (ends_access_bind (write_memcpy hfit) (ends_pure ⟨?_, ?_⟩))
  · rw [BitBuffer.copyRight, if_neg (by omega), if_neg (by omega), drop_take]
  · have hbytes := sizeBytes_eq other
    exact h.write hfit (by omega)

theorem copyLeft_ends (h : Sized buf) (ho : Sized other) (endIndex : Nat) :
    Ends (copyLeft buf other endIndex) fun buf' =>
      buf.copyLeft other endIndex = some buf' ∧ Sized buf' := by
  refine ends_check_bind fun hroom => ends_check_bind fun hend => ?_
  obtain ⟨hread, hlen⟩ := read_used ho 0 endIndex (by omega)
  have hfit : 0 + ((other.data.drop 0).take endIndex).length ≤ buf.capacityBytes := by omega
  refine ends_access_bind hread (ends_access_bind (write_memcpy hfit) (ends_pure ⟨?_, ?_⟩))
  · rw [BitBuffer.copyLeft, if_neg (by omega), if_neg (by omega)]
    rfl
  · exact h.write hfit (by omega)

theorem copyBytes_ends (h : Sized buf) (bytes : Bytes) :
    Ends (copyBytes buf bytes) fun buf' => buf.copyBytes bytes = some buf' ∧ Sized buf' := by
  refine ends_check_bind fun hroom => ?_
  have hfit : 0 + bytes.length ≤ buf.capacityBytes := by omega
  refine ends_access_bind (write_memcpy hfit) (ends_pure ⟨?_, ?_⟩)
  · rw [BitBuffer.copyBytes, if_neg (by omega)]
  · exact h.write hfit (by omega)

theorem copyBits_ends (h : Sized buf) (source : Bytes) (sizeBits : Nat) :
    Ends (copyBits buf source sizeBits) Sized := by
  refine ends_check_bind fun hroom => ?_
  have hfit : 0 + ((range ((sizeBits + 7) / 8)).map (source.getD · 0)).length ≤
      buf.capacityBytes := by
    rw [length_map, length_range]
    omega
  exact ends_access_bind (write_memcpy hfit) (ends_pure (h.write hfit hroom))

theorem copyBytesWithParity_ends (h : Sized buf) (source : Bytes) {sizeBits : Nat}
    (hroom : sizeBits / 9 ≤ buf.capacityBytes) :
    Ends (copyBytesWithParity buf source sizeBits) Sized := by
  have hpos := h.pos
  by_cases hshort : sizeBits < 9
  · rw [copyBytesWithParity, if_pos hshort]
    have hfit : 0 + [source.getD 0 0].length ≤ buf.capacityBytes := by
      rw [length_singleton]
      omega
    exact ends_access_bind (write_memcpy hfit) (ends_pure (h.write hfit (by omega)))
  · by_cases hnine : sizeBits % 9 = 0
    · obtain ⟨buf', hcopy, -, -, hsized⟩ := copyBytesWithParity_spec h source
        (n := sizeBits / 9) (by omega) hroom
      have hsize : 9 * (sizeBits / 9) = sizeBits := by omega
      rw [hsize] at hcopy
      rw [hcopy]
      exact hsized
    · rw [copyBytesWithParity, if_neg hshort, check, if_neg hnine]
      trivial

theorem writeBytes_ends (h : Sized buf) (sizeBytes : Nat) :
    Ends (writeBytes buf sizeBytes) fun bytes => bytes = buf.bytes := by
  refine ends_check_bind fun _ => ?_
  exact ends_access (read_used h 0 buf.sizeBytes (by omega)).1 rfl

theorem writeBytesMid_ends (h : Sized buf) {startIndex sizeBytes : UInt32}
    (hwords : startIndex.toNat + sizeBytes.toNat < 4294967296) :
    Ends (writeBytesMid buf startIndex sizeBytes) fun bytes =>
      buf.writeBytesMid startIndex.toNat sizeBytes.toNat = some bytes := by
  refine ends_check_bind fun hend => ?_
  have hsum : (startIndex + sizeBytes).toNat = startIndex.toNat + sizeBytes.toNat := by
    rw [UInt32.toNat_add]
    exact Nat.mod_eq_of_lt hwords
  rw [hsum] at hend
  refine ends_access (read_used h _ _ hend).1 ?_
  rw [BitBuffer.writeBytesMid, if_neg (by omega)]

theorem startsWithByte_ends (h : Sized buf) (byte : UInt8) :
    Ends (startsWithByte buf byte) fun starts => starts = buf.startsWithByte byte := by
  by_cases hzero : buf.sizeBytes = 0
  · rw [startsWithByte, if_pos hzero]
    simp [Ends, BitBuffer.startsWithByte, hzero]
  · have hfirst : buf.data[0]? = some (buf.data.getD 0 0) := getElem?_eq_getD h.pos
    rw [startsWithByte, if_neg hzero]
    refine ends_access_bind hfirst (ends_pure ?_)
    rw [BitBuffer.startsWithByte, head?_eq_getElem?, hfirst, decide_eq_true hzero, Bool.true_and]
    exact decide_eq_decide.mpr Option.some_inj.symm

theorem getByte_ends (buf : BitBuffer) (index : Nat) :
    Ends (getByte buf index) fun byte => buf.getByte index = some byte := by
  refine ends_check_bind fun hlt => ?_
  have hbyte : buf.data[index]? = some (buf.data.getD index 0) := getElem?_eq_getD hlt
  exact ends_access hbyte hbyte

theorem getByteFromBit_ends (indexBits : Nat) (hnext : indexBits / 8 + 1 < buf.capacityBytes) :
    Ends (getByteFromBit buf indexBits) fun byte =>
      ∀ k < 8, byte.toNat.testBit k = low buf.data (indexBits + k) := by
  refine ends_check_bind fun _ => ?_
  have hfirst : indexBits / 8 < buf.data.length := Nat.lt_of_succ_lt hnext
  refine ends_access_bind (getElem?_eq_getD hfirst)
    (ends_access_bind (getElem?_eq_getD hnext) (ends_pure ?_))
  exact fun k hk => testBit_byteAt buf.data indexBits hk

theorem writeParityLoop_ends {bitstream : Bytes} {pos : Nat} (count : Nat)
    (hdata : i + count ≤ buf.data.length) (hparity : buf.data.length ≤ 8 * buf.parity.length)
    (hlen : (9 * (i + count) + 8) / 8 ≤ bitstream.length) (hpos : pos ≤ 9 * i) :
    Ends (writeParityLoop buf count i pos bitstream) fun _ => True := by
  induction count generalizing i pos bitstream with
  | zero => exact ends_ok trivial
  | succ count ih =>
    have hbits : i / 8 < buf.parity.length := by omega
    have hbyte : i < buf.data.length := by omega
    have hfirst : pos / 8 < bitstream.length := by omega
    refine ends_access_bind (getElem?_eq_getElem hbits) ?_
    refine ends_access_bind (getElem?_eq_getElem hbyte) ?_
    split
    · rw [access_write_bind hfirst]
      have hsecond : (pos + 8) % 65536 / 8 < (bitstream.set (pos / 8) buf.data[i]).length := by
        rw [length_set]
        omega
      have hnext : ((pos + 8) % 65536 + 1) % 65536 ≤ pos + 8 + 1 :=
        Nat.le_trans (Nat.mod_le _ _) (Nat.add_le_add_right (Nat.mod_le _ _) 1)
      rw [access_write_bind hsecond]
      exact ih (by omega) (by rw [length_set, length_set]; omega) (by omega)
    · refine ends_access_bind (getElem?_eq_getElem hfirst) ?_
      rw [access_write_bind hfirst, access_write_bind (by rw [length_set]; omega)]
      exact ih (by omega) (by rw [length_set, length_set]; omega) (by omega)

theorem writeBytesWithParity_ends (h : Sized buf) (dest : Bytes) :
    Ends (writeBytesWithParity buf dest) fun _ => True := by
  refine ends_check_bind fun hroom => ?_
  have hle : buf.sizeBytes ≤ buf.data.length := h.sizeBytes_le
  exact writeParityLoop_ends _ (by omega) h.length_le (by omega) (Nat.zero_le _)

theorem setByte_ends (h : Sized buf) (index : Nat) (byte : UInt8) :
    Ends (setByte buf index byte) fun buf' =>
      buf.setByte index byte = some buf' ∧ Sized buf' := by
  refine ends_check_bind fun hlt => ?_
  have hle : buf.sizeBytes ≤ buf.data.length := h.sizeBytes_le
  rw [access_write_bind (by omega)]
  refine ends_pure ⟨?_, h.of_lengths length_set rfl h.size⟩
  rw [BitBuffer.setByte, if_neg (by omega)]

theorem withParity_eq (parity : Bytes) (index : Nat) (bit : Bool) :
    withParity parity index bit = BitBuffer.setParity parity index bit := by
  have hmask : ∀ shift < 8, UInt8.ofNat ((bitByte bit).toNat <<< shift) =
      (if bit then 1 else 0) <<< UInt8.ofNat shift := by
    cases bit <;> decide
  have hlt : index % 8 < 8 := Nat.mod_lt index (by decide)
  rw [withParity, BitBuffer.setParity, hmask _ hlt]
  by_cases hz : index % 8 = 0
  · rw [if_pos hz, if_pos hz, hz]
    cases bit <;> rfl
  · rw [if_neg hz, if_neg hz]

theorem setByteWithParity_ends (h : Sized buf) (index : Nat) (byte : UInt8) (parity : Bool) :
    Ends (setByteWithParity buf index byte parity) fun buf' =>
      buf.setByteWithParity index byte parity = some buf' ∧ Sized buf' := by
  refine ends_check_bind fun hlt => ?_
  have hsize := h.size
  have hdata : index < buf.data.length := by
    unfold BitBuffer.capacityBytes at hsize
    omega
  have hparity : index / 8 < buf.parity.length := by
    have := h.length_le
    omega
  rw [access_write_bind hdata, putParity_eq hparity rfl]
  refine ends_pure ⟨?_, h.of_lengths length_set (length_withParity _ _ _) h.size⟩
  rw [BitBuffer.setByteWithParity, if_neg (by omega), withParity_eq]

theorem setSize_ends (h : Sized buf) (newSize : Nat) :
    Ends (setSize buf newSize) fun buf' => buf.setSize newSize = some buf' ∧ Sized buf' := by
  refine ends_check_bind fun hle => ends_pure ⟨?_, h.resize hle⟩
  rw [BitBuffer.setSize, if_neg (by omega)]

theorem setSizeBytes_ends (h : Sized buf) (newSizeBytes : Nat) :
    Ends (setSizeBytes buf newSizeBytes) fun buf' =>
      buf.setSizeBytes newSizeBytes = some buf' ∧ Sized buf' := by
  refine ends_check_bind fun hle => ends_pure ⟨?_, h.resize (by omega)⟩
  rw [BitBuffer.setSizeBytes, if_neg (by omega)]

theorem appendRight_ends (h : Sized buf) (ho : Sized other) {startIndex : UInt32}
    (hstart : startIndex.toNat ≤ other.sizeBytes)
    (hbits : startIndex.toNat * 8 ≤ buf.sizeBits + other.sizeBits) :
    Ends (appendRight buf other startIndex) fun buf' =>
      (startIndex.toNat * 8 ≤ other.sizeBits →
        buf.appendRight other startIndex.toNat = some buf') ∧ Sized buf' := by
  have hram := h.ram
  have hram' := ho.ram
  have hsize := h.size
  have hsize' := ho.size
  have hle := h.sizeBytes_le
  have hle' := ho.sizeBytes_le
  have hbytes := sizeBytes_eq buf
  have hbytes' := sizeBytes_eq other
  unfold ramSize at hram hram'
  have hcount : (UInt32.ofNat other.sizeBytes - startIndex).toNat =
      other.sizeBytes - startIndex.toNat := by
    rw [UInt32.toNat_sub, UInt32.toNat_ofNat']
    omega
  have hsum : (UInt32.ofNat buf.sizeBytes + (UInt32.ofNat other.sizeBytes - startIndex)).toNat =
      buf.sizeBytes + (other.sizeBytes - startIndex.toNat) := by
    rw [UInt32.toNat_add, hcount, UInt32.toNat_ofNat']
    omega
  have hnew : (UInt32.ofNat buf.sizeBits + (UInt32.ofNat other.sizeBits - startIndex * 8)).toNat =
      buf.sizeBits + other.sizeBits - startIndex.toNat * 8 := by
    have height : (8 : UInt32).toNat = 8 := rfl
    rw [UInt32.toNat_add, UInt32.toNat_sub, UInt32.toNat_mul, UInt32.toNat_ofNat',
      UInt32.toNat_ofNat', height]
    omega
  refine ends_check_bind fun hroom => ?_
  rw [hsum] at hroom
  obtain ⟨hread, hlen⟩ := read_used ho startIndex.toNat
    (other.sizeBytes - startIndex.toNat) (by omega)
  have hfit : buf.sizeBytes +
      ((other.data.drop startIndex.toNat).take (other.sizeBytes - startIndex.toNat)).length ≤
        buf.capacityBytes := by
    omega
  refine ends_access_bind (hcount ▸ hread)
    (ends_access_bind (write_memcpy hfit) (ends_pure ⟨fun hnonneg => ?_, ?_⟩))
  · rw [BitBuffer.appendRight, if_neg (by omega), if_neg (by omega), drop_take, hnew,
      Nat.add_sub_assoc hnonneg]
  · rw [hnew]
    exact h.write hfit (by omega)

theorem append_ends (h : Sized buf) (ho : Sized other) :
    Ends (append buf other) fun buf' => buf.append other = some buf' ∧ Sized buf' := by
  have hzero : (0 : UInt32).toNat = 0 := rfl
  refine (appendRight_ends h ho (by omega) (by omega)).mono fun buf' hbuf' => ?_
  exact ⟨hbuf'.1 (by omega), hbuf'.2⟩

theorem appendByte_ends (h : Sized buf) (byte : UInt8) :
    Ends (appendByte buf byte) fun buf' => buf.appendByte byte = some buf' ∧ Sized buf' := by
  refine ends_check_bind fun hle => ?_
  have hfit : buf.sizeBytes + [byte].length ≤ buf.capacityBytes := hle
  refine ends_access_bind (write_memcpy hfit) (ends_pure ⟨?_, h.write hfit (by omega)⟩)
  rw [BitBuffer.appendByte, if_neg (by omega)]

theorem appendBytes_ends (h : Sized buf) (bytes : Bytes) :
    Ends (appendBytes buf bytes) fun buf' => buf.appendBytes bytes = some buf' ∧ Sized buf' := by
  refine ends_check_bind fun hle => ?_
  have hbytes := sizeBytes_eq buf
  refine ends_access_bind (write_memcpy hle) (ends_pure ⟨?_, h.write hle (by omega)⟩)
  rw [BitBuffer.appendBytes, if_neg (by omega)]

/-- A buffer with one more bit, which was zero before unless it is set. -/
structure Appended (buf : BitBuffer) (bit : Bool) (buf' : BitBuffer) : Prop where
  size : buf'.sizeBits = buf.sizeBits + 1
  last : low buf'.data buf.sizeBits = bit
  earlier : ∀ k < buf.sizeBits, low buf'.data k = low buf.data k

theorem appendBit_ends (h : Sized buf) {bit : Bool}
    (hstale : bit = false → low buf.data buf.sizeBits = false) :
    Ends (appendBit buf bit) fun buf' => Appended buf bit buf' ∧ Sized buf' := by
  have hpos := h.pos
  have hbytes := sizeBytes_eq buf
  refine ends_check_bind fun hroom => ?_
  have hbit : buf.sizeBits < buf.capacityBytes * 8 := by
    split at hroom <;> omega
  cases bit with
  | false => exact ends_pure ⟨⟨rfl, hstale rfl, fun _ _ => rfl⟩, h.resize hbit⟩
  | true =>
    have hbyte : buf.sizeBits / 8 < buf.data.length := by
      unfold BitBuffer.capacityBytes at hbit
      omega
    have hone (j : Nat) (hj : j < 8) : (UInt8.ofNat (1 <<< (buf.sizeBits % 8))).toNat.testBit j =
        decide (j = buf.sizeBits % 8) :=
      (testBit_bitByte_shift true hj).trans (Bool.and_true _)
    refine ends_access_bind (getElem?_eq_getElem hbyte) ?_
    rw [access_write_bind hbyte]
    refine ends_pure ⟨⟨rfl, ?_, fun k hk => ?_⟩, h.of_lengths length_set rfl hbit⟩
    · rw [low_set, if_pos ⟨rfl, hbyte⟩, testBit_or, hone _ (Nat.mod_lt _ (by decide)),
        decide_eq_true rfl, Bool.or_true]
    · rw [low_set]
      split
      · next hset =>
        have hold : buf.data[buf.sizeBits / 8].toNat.testBit (k % 8) = low buf.data k := by
          rw [low, hset.1, getD_eq_getElem _ _ hbyte]
        rw [testBit_or, hone _ (Nat.mod_lt _ (by decide)), decide_eq_false (by omega),
          Bool.or_false, hold]
      · rfl

abbrev Buffers := Nat → Option BitBuffer

/-- The memory, until an access outside an array. -/
inductive Memory
  | intact (buffers : Buffers)
  | corrupt

/-- The operations on bit buffers that have an effect or use an array; the buffers are given by
numbers, the arrays of the caller by their contents. -/
inductive Op
  | alloc (b capacityBytes : Nat)
  | free (b : Nat)
  | reset (b : Nat)
  | copy (b other : Nat)
  | copyRight (b other startIndex : Nat)
  | copyLeft (b other endIndex : Nat)
  | copyBytes (b : Nat) (bytes : Bytes)
  | copyBits (b : Nat) (source : Bytes) (sizeBits : Nat)
  | copyBytesWithParity (b : Nat) (source : Bytes) (sizeBits : Nat)
  | writeBytes (b sizeBytes : Nat)
  | writeBytesWithParity (b : Nat) (dest : Bytes)
  | writeBytesMid (b : Nat) (startIndex sizeBytes : UInt32)
  | startsWithByte (b : Nat) (byte : UInt8)
  | getByte (b index : Nat)
  | getByteFromBit (b indexBits : Nat)
  | setByte (b index : Nat) (byte : UInt8)
  | setByteWithParity (b index : Nat) (byte : UInt8) (parity : Bool)
  | setSize (b newSize : Nat)
  | setSizeBytes (b newSizeBytes : Nat)
  | append (b other : Nat)
  | appendRight (b other : Nat) (startIndex : UInt32)
  | appendByte (b : Nat) (byte : UInt8)
  | appendBytes (b : Nat) (bytes : Bytes)
  | appendBit (b : Nat) (bit : Bool)

/-- A pointer to a buffer; `furi_check` fails on `NULL`. -/
def lookup (buffers : Buffers) (b : Nat) : Result BitBuffer :=
  match buffers b with
  | some buf => .ok buf
  | none => .error .check

def mutate (buffers : Buffers) (b : Nat) (f : BitBuffer → Result BitBuffer) : Result Buffers := do
  let buf ← lookup buffers b
  let buf ← f buf
  return update buffers b (some buf)

def mutateFrom (buffers : Buffers) (b o : Nat) (f : BitBuffer → BitBuffer → Result BitBuffer) :
    Result Buffers := do
  let other ← lookup buffers o
  mutate buffers b fun buf => f buf other

def observe {α : Type} (buffers : Buffers) (b : Nat) (f : BitBuffer → Result α) :
    Result Buffers := do
  let buf ← lookup buffers b
  let _ ← f buf
  return buffers

def apply (buffers : Buffers) : Op → Result Buffers
  | .alloc b capacityBytes => do
    check (buffers b = none)
    let buf ← alloc capacityBytes
    return update buffers b (some buf)
  | .free b => do
    let _ ← lookup buffers b
    return update buffers b none
  | .reset b => mutate buffers b fun buf => .ok buf.reset
  | .copy b o =>
    if b = o then observe buffers b fun buf => .ok buf else mutateFrom buffers b o copy
  | .copyRight b o startIndex =>
    mutateFrom buffers b o fun buf other => copyRight buf other startIndex
  | .copyLeft b o endIndex => mutateFrom buffers b o fun buf other => copyLeft buf other endIndex
  | .copyBytes b bytes => mutate buffers b fun buf => copyBytes buf bytes
  | .copyBits b source sizeBits => mutate buffers b fun buf => copyBits buf source sizeBits
  | .copyBytesWithParity b source sizeBits =>
    mutate buffers b fun buf => copyBytesWithParity buf source sizeBits
  | .writeBytes b sizeBytes => observe buffers b fun buf => writeBytes buf sizeBytes
  | .writeBytesWithParity b dest => observe buffers b fun buf => writeBytesWithParity buf dest
  | .writeBytesMid b startIndex sizeBytes =>
    observe buffers b fun buf => writeBytesMid buf startIndex sizeBytes
  | .startsWithByte b byte => observe buffers b fun buf => startsWithByte buf byte
  | .getByte b index => observe buffers b fun buf => getByte buf index
  | .getByteFromBit b indexBits => observe buffers b fun buf => getByteFromBit buf indexBits
  | .setByte b index byte => mutate buffers b fun buf => setByte buf index byte
  | .setByteWithParity b index byte parity =>
    mutate buffers b fun buf => setByteWithParity buf index byte parity
  | .setSize b newSize => mutate buffers b fun buf => setSize buf newSize
  | .setSizeBytes b newSizeBytes => mutate buffers b fun buf => setSizeBytes buf newSizeBytes
  | .append b o => mutateFrom buffers b o append
  | .appendRight b o startIndex =>
    mutateFrom buffers b o fun buf other => appendRight buf other startIndex
  | .appendByte b byte => mutate buffers b fun buf => appendByte buf byte
  | .appendBytes b bytes => mutate buffers b fun buf => appendBytes buf bytes
  | .appendBit b bit => mutate buffers b fun buf => appendBit buf bit

/-- The memory behind an operation, if its checks have passed. -/
def settle : Result Buffers → Option Memory
  | .ok buffers => some (.intact buffers)
  | .error .outside => some .corrupt
  | .error .check => none

def machine : Machine Memory Op where
  step
    | .corrupt, _ => none
    | .intact buffers, op => settle (apply buffers op)

def initial : Memory := .intact fun _ => none

/-- Where the operations that check too little do what they should. -/
def FineFor (buffers : Buffers) : Op → Prop
  | .copyBytesWithParity b _ sizeBits =>
    ∀ buf, buffers b = some buf → sizeBits / 9 ≤ buf.capacityBytes
  | .writeBytesMid _ startIndex sizeBytes => startIndex.toNat + sizeBytes.toNat < 4294967296
  | .getByteFromBit b indexBits =>
    ∀ buf, buffers b = some buf → indexBits / 8 + 1 < buf.capacityBytes
  | .appendRight b o startIndex =>
    ∀ buf other, buffers b = some buf → buffers o = some other →
      startIndex.toNat ≤ other.sizeBytes ∧ startIndex.toNat * 8 ≤ buf.sizeBits + other.sizeBits
  | .appendBit b bit =>
    ∀ buf, buffers b = some buf → bit = false → low buf.data buf.sizeBits = false
  | _ => True

def Fine : Memory → Op → Prop
  | .intact buffers, op => FineFor buffers op
  | .corrupt, _ => True

/-- All buffers have a size that fits their arrays. -/
def AllSized (buffers : Buffers) : Prop := ∀ b buf, buffers b = some buf → Sized buf

variable {buffers : Buffers}

theorem AllSized.update (h : AllSized buffers) (b : Nat) (hbuf : Sized buf) :
    AllSized (update buffers b (some buf)) := by
  intro c buf' hc
  by_cases hcb : c = b
  · subst hcb
    rw [update_self] at hc
    exact Option.some.inj hc ▸ hbuf
  · rw [update_of_ne hcb] at hc
    exact h c buf' hc

theorem lookup_ends (b : Nat) : Ends (lookup buffers b) fun buf => buffers b = some buf := by
  unfold lookup
  cases h : buffers b with
  | some buf => exact rfl
  | none => trivial

theorem mutate_ends (h : AllSized buffers) (b : Nat) {f : BitBuffer → Result BitBuffer}
    (hf : ∀ buf, buffers b = some buf → Sized buf → Ends (f buf) Sized) :
    Ends (mutate buffers b f) AllSized := by
  refine (lookup_ends b).bind fun buf hbuf => ?_
  exact (hf buf hbuf (h b buf hbuf)).bind fun buf' hbuf' => h.update b hbuf'

theorem mutateFrom_ends (h : AllSized buffers) (b o : Nat)
    {f : BitBuffer → BitBuffer → Result BitBuffer}
    (hf : ∀ buf other, buffers b = some buf → buffers o = some other → Sized buf → Sized other →
      Ends (f buf other) Sized) :
    Ends (mutateFrom buffers b o f) AllSized := by
  refine (lookup_ends o).bind fun other hother => ?_
  exact mutate_ends h b fun buf hbuf hsized => hf buf other hbuf hother hsized (h o other hother)

theorem observe_ends {α : Type} (h : AllSized buffers) (b : Nat) {f : BitBuffer → Result α}
    (hf : ∀ buf, buffers b = some buf → Sized buf → Ends (f buf) fun _ => True) :
    Ends (observe buffers b f) AllSized := by
  refine (lookup_ends b).bind fun buf hbuf => ?_
  exact (hf buf hbuf (h b buf hbuf)).bind fun _ _ => h

/-- Every operation either fails its check or keeps the sizes of all buffers. -/
theorem apply_ends (h : AllSized buffers) (op : Op) (hfine : FineFor buffers op) :
    Ends (apply buffers op) AllSized := by
  cases op with
  | alloc b capacityBytes =>
    refine ends_check_bind fun _ => ?_
    exact (alloc_ends capacityBytes).bind fun buf hbuf => h.update b hbuf
  | free b =>
    refine (lookup_ends b).bind fun _ _ => ?_
    intro c buf hc
    by_cases hcb : c = b
    · subst hcb
      rw [update_self] at hc
      cases hc
    · rw [update_of_ne hcb] at hc
      exact h c buf hc
  | reset b => exact mutate_ends h b fun _ _ hbuf => reset_sized hbuf
  | copy b o =>
    show Ends (if b = o then observe buffers b (fun buf => .ok buf)
      else mutateFrom buffers b o copy) AllSized
    split
    · exact observe_ends h b fun _ _ _ => trivial
    · exact mutateFrom_ends h b o fun _ _ _ _ hbuf hother =>
        (copy_ends hbuf hother).mono fun _ h => h.2
  | copyRight b o startIndex =>
    exact mutateFrom_ends h b o fun _ _ _ _ hbuf hother =>
      (copyRight_ends hbuf hother startIndex).mono fun _ h => h.2
  | copyLeft b o endIndex =>
    exact mutateFrom_ends h b o fun _ _ _ _ hbuf hother =>
      (copyLeft_ends hbuf hother endIndex).mono fun _ h => h.2
  | copyBytes b bytes =>
    exact mutate_ends h b fun _ _ hbuf => (copyBytes_ends hbuf bytes).mono fun _ h => h.2
  | copyBits b source sizeBits =>
    exact mutate_ends h b fun _ _ hbuf => copyBits_ends hbuf source sizeBits
  | copyBytesWithParity b source sizeBits =>
    exact mutate_ends h b fun buf heq hbuf =>
      copyBytesWithParity_ends hbuf source (hfine buf heq)
  | writeBytes b sizeBytes =>
    exact observe_ends h b fun _ _ hbuf => (writeBytes_ends hbuf sizeBytes).mono fun _ _ => trivial
  | writeBytesWithParity b dest =>
    exact observe_ends h b fun _ _ hbuf => writeBytesWithParity_ends hbuf dest
  | writeBytesMid b startIndex sizeBytes =>
    exact observe_ends h b fun _ _ hbuf =>
      (writeBytesMid_ends hbuf hfine).mono fun _ _ => trivial
  | startsWithByte b byte =>
    exact observe_ends h b fun _ _ hbuf => (startsWithByte_ends hbuf byte).mono fun _ _ => trivial
  | getByte b index =>
    exact observe_ends h b fun buf _ _ => (getByte_ends buf index).mono fun _ _ => trivial
  | getByteFromBit b indexBits =>
    exact observe_ends h b fun buf heq _ =>
      (getByteFromBit_ends indexBits (hfine buf heq)).mono fun _ _ => trivial
  | setByte b index byte =>
    exact mutate_ends h b fun _ _ hbuf => (setByte_ends hbuf index byte).mono fun _ h => h.2
  | setByteWithParity b index byte parity =>
    exact mutate_ends h b fun _ _ hbuf =>
      (setByteWithParity_ends hbuf index byte parity).mono fun _ h => h.2
  | setSize b newSize =>
    exact mutate_ends h b fun _ _ hbuf => (setSize_ends hbuf newSize).mono fun _ h => h.2
  | setSizeBytes b newSizeBytes =>
    exact mutate_ends h b fun _ _ hbuf => (setSizeBytes_ends hbuf newSizeBytes).mono fun _ h => h.2
  | append b o =>
    exact mutateFrom_ends h b o fun _ _ _ _ hbuf hother =>
      (append_ends hbuf hother).mono fun _ h => h.2
  | appendRight b o startIndex =>
    exact mutateFrom_ends h b o fun buf other heq heq' hbuf hother =>
      (appendRight_ends hbuf hother (hfine buf other heq heq').1
        (hfine buf other heq heq').2).mono fun _ h => h.2
  | appendByte b byte =>
    exact mutate_ends h b fun _ _ hbuf => (appendByte_ends hbuf byte).mono fun _ h => h.2
  | appendBytes b bytes =>
    exact mutate_ends h b fun _ _ hbuf => (appendBytes_ends hbuf bytes).mono fun _ h => h.2
  | appendBit b bit =>
    exact mutate_ends h b fun buf heq hbuf =>
      (appendBit_ends hbuf (hfine buf heq)).mono fun _ h => h.2

/-- No access was made outside an array, and every size fits. -/
def Safe : Memory → Prop
  | .intact buffers => AllSized buffers
  | .corrupt => False

theorem exists_of_settle {r : Result Buffers} {post : Buffers → Prop} {memory : Memory}
    (h : Ends r post) (hsettle : settle r = some memory) :
    ∃ buffers, memory = .intact buffers ∧ post buffers := by
  cases r with
  | ok buffers => exact ⟨buffers, (Option.some.inj hsettle).symm, h⟩
  | error e =>
    cases e with
    | check => exact absurd hsettle (by simp [settle])
    | outside => exact absurd h id

theorem safe_step (memory : Memory) (op : Op) (memory' : Memory) (h : Safe memory)
    (hfine : Fine memory op) (hstep : machine.step memory op = some memory') : Safe memory' := by
  cases memory with
  | corrupt => exact absurd h id
  | intact buffers =>
    obtain ⟨buffers', rfl, hsized⟩ := exists_of_settle (apply_ends h op hfine) hstep
    exact hsized

theorem safe_initial : Safe initial := fun _ _ h => absurd h (by simp)

theorem safe_run {memory : Memory} {ops : List Op} (hrun : machine.run initial ops = some memory)
    (hmeets : machine.Meets Fine initial ops) : Safe memory :=
  machine.run_invariant_of_meets safe_step safe_initial hmeets hrun

theorem appendBit_step (h : AllSized buffers) {b : Nat} {bit : Bool} {memory : Memory}
    (hfine : FineFor buffers (.appendBit b bit))
    (hstep : machine.step (.intact buffers) (.appendBit b bit) = some memory) :
    ∃ buf buf', buffers b = some buf ∧
      memory = .intact (update buffers b (some buf')) ∧ Appended buf bit buf' := by
  have hends : Ends (apply buffers (.appendBit b bit)) fun buffers' => ∃ buf buf',
      buffers b = some buf ∧ buffers' = update buffers b (some buf') ∧ Appended buf bit buf' := by
    refine (lookup_ends b).bind fun buf hbuf => ?_
    refine (appendBit_ends (h b buf hbuf) (hfine buf hbuf)).bind fun buf' hbuf' => ?_
    exact ⟨buf, buf', hbuf, rfl, hbuf'.1⟩
  obtain ⟨buffers', rfl, buf, buf', hbuf, rfl, happended⟩ := exists_of_settle hends hstep
  exact ⟨buf, buf', hbuf, rfl, happended⟩

/-- In a run whose operations meet the condition no access falls outside an array, all sizes fit, and
appending a bit sets the bit at the old size to it and keeps the others. -/
theorem bitBuffer_faithful {memory : Memory} {ops : List Op}
    (hrun : machine.run initial ops = some memory) (hmeets : machine.Meets Fine initial ops) :
    ∃ buffers, memory = .intact buffers ∧
      (∀ b buf, buffers b = some buf → buf.sizeBits ≤ 8 * buf.capacityBytes) ∧
      ∀ b bit memory', Fine memory (.appendBit b bit) →
        machine.step memory (.appendBit b bit) = some memory' →
        ∃ buf buf', buffers b = some buf ∧
          memory' = .intact (update buffers b (some buf')) ∧ Appended buf bit buf' := by
  have hsafe := safe_run hrun hmeets
  cases memory with
  | corrupt => exact absurd hsafe id
  | intact buffers =>
    refine ⟨buffers, rfl, fun b buf hbuf => ?_, fun b bit memory' hfine hstep => ?_⟩
    · have hsize := (hsafe b buf hbuf).size
      omega
    · exact appendBit_step hsafe hfine hstep

/-- A bit behind a byte of a buffer. -/
theorem bitBuffer_faithful_nine :
    ∃ buffers, machine.run initial [.alloc 0 2, .appendByte 0 0xA5, .appendBit 0 false] =
        some (.intact buffers) ∧
      ∀ b buf, buffers b = some buf → buf.sizeBits ≤ 8 * buf.capacityBytes := by
  obtain ⟨buffers, hmemory, hsize, -⟩ :=
    @bitBuffer_faithful _ [.alloc 0 2, .appendByte 0 0xA5, .appendBit 0 false] rfl
      ⟨trivial, trivial, fun buf hbuf _ => Option.some.inj hbuf ▸ rfl, trivial⟩
  exact ⟨buffers, congrArg some hmemory, hsize⟩

/-- A bit that is not set is appended over a stale one; and three operations whose checks pass make
an access outside the array of a buffer. -/
theorem checks_too_little : (∃ buffers buf, machine.run initial
        [.alloc 0 1, .copyBytes 0 [0xFF], .setSize 0 0, .appendBit 0 false] =
          some (.intact buffers) ∧
        buffers 0 = some buf ∧ buf.sizeBits = 1 ∧ low buf.data 0 = true) ∧
      machine.run initial [.alloc 0 1, .copyBytesWithParity 0 [0, 0, 0] 18] = some .corrupt ∧
      machine.run initial [.alloc 0 1, .getByteFromBit 0 0] = some .corrupt ∧
      machine.run initial [.alloc 0 1, .alloc 1 1, .appendByte 0 7, .appendRight 0 1 1] =
        some .corrupt :=
  ⟨⟨_, _, rfl, rfl, rfl, rfl⟩, rfl, rfl, rfl⟩

end BitMemory
end NikitaFirmware.Toolbox
