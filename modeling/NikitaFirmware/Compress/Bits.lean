import NikitaFirmware.Foundations.Checked

/-!
# The input side of the heatshrink decoder

The decoder sinks bytes into an input buffer and reads them bit by bit, the most significant bit
of a byte first: `bit_index` is the mask of the next bit of `current_byte`, or zero when the byte
is used up. `Reader.pending` is the list of bits that a reader still holds. Reading `count` bits
takes the first `count` of them or, where there are fewer, takes nothing.
-/

namespace NikitaFirmware
open List
namespace Compress
open Foundations

/-- The masks that `bit_index` goes through within one byte. -/
def bitMasks : List UInt8 := [0x80, 0x40, 0x20, 0x10, 0x08, 0x04, 0x02, 0x01]

def bitsFrom (mask byte : UInt8) : List Bool :=
  (bitMasks.dropWhile (· != mask)).map fun m => byte &&& m != 0

def bytesBits (bytes : Bytes) : List Bool := bytes.flatMap (bitsFrom 0x80)

def pushBit (accumulator : UInt16) (bit : Bool) : UInt16 :=
  accumulator <<< 1 ||| if bit then 1 else 0

theorem bitsFrom_zero (byte : UInt8) : bitsFrom 0 byte = [] := rfl

theorem length_bitsFrom_first (byte : UInt8) : (bitsFrom 0x80 byte).length = 8 := rfl

theorem bitsFrom_eq_cons {mask : UInt8} (h : mask ∈ bitMasks) (byte : UInt8) :
    bitsFrom mask byte = (byte &&& mask != 0) :: bitsFrom (mask >>> 1) byte := by
  have htail : ∀ m ∈ bitMasks, bitMasks.dropWhile (· != m) =
      m :: bitMasks.dropWhile (· != m >>> 1) := by decide +kernel
  rw [bitsFrom, htail mask h, map_cons, bitsFrom]

theorem shiftRight_mem {mask : UInt8} (h : mask ∈ bitMasks) :
    mask >>> 1 = 0 ∨ mask >>> 1 ∈ bitMasks := by
  have hshift : ∀ m ∈ bitMasks, m >>> 1 = 0 ∨ m >>> 1 ∈ bitMasks := by decide +kernel
  exact hshift mask h

/-- `count` bits are left from a mask on exactly when it is not below the `count`-th mask. -/
theorem lt_shiftLeft_iff {mask : UInt8} (h : mask = 0 ∨ mask ∈ bitMasks) (byte : UInt8) {count : Nat}
    (hpos : 0 < count) (hle : count ≤ 8) :
    mask.toNat < 1 <<< (count - 1) ↔ (bitsFrom mask byte).length < count := by
  have hall : ∀ m ∈ 0 :: bitMasks, ∀ i < 8,
      (m.toNat < 1 <<< i ↔ (bitMasks.dropWhile (· != m)).length < i + 1) := by decide +kernel
  have hmem : mask ∈ 0 :: bitMasks := mem_cons.mpr h
  have := hall mask hmem (count - 1) (by omega)
  rw [Nat.sub_add_cancel hpos] at this
  rw [this, bitsFrom, length_map]

theorem bytesBits_nil : bytesBits [] = [] := rfl

theorem bytesBits_cons (b : UInt8) (bs : Bytes) :
    bytesBits (b :: bs) = bitsFrom 0x80 b ++ bytesBits bs := flatMap_cons

theorem bytesBits_append (a b : Bytes) : bytesBits (a ++ b) = bytesBits a ++ bytesBits b :=
  flatMap_append

theorem length_bytesBits (bs : Bytes) : (bytesBits bs).length = 8 * bs.length := by
  induction bs with
  | nil => rfl
  | cons b bs ih =>
    rw [bytesBits_cons, length_append, ih, length_bitsFrom_first, length_cons]
    omega

/-- The fields of `heatshrink_decoder` from which it reads, with the input part of `buffers`. -/
structure Reader (capacity : Nat) where
  buffer : Bytes
  inputSize : Nat
  inputIndex : Nat
  currentByte : UInt8
  bitIndex : UInt8
  length_buffer : buffer.length = capacity
  size_le : inputSize ≤ capacity
  index_lt : inputIndex < inputSize ∨ inputIndex = 0 ∧ inputSize = 0
  bitIndex_mem : bitIndex = 0 ∨ bitIndex ∈ bitMasks

inductive SinkRes
  | ok
  | full
  deriving DecidableEq

namespace Reader
variable {n : Nat}

def reset (n : Nat) : Reader n where
  buffer := List.replicate n 0
  inputSize := 0
  inputIndex := 0
  currentByte := 0
  bitIndex := 0
  length_buffer := length_replicate
  size_le := Nat.zero_le n
  index_lt := .inr ⟨rfl, rfl⟩
  bitIndex_mem := .inl rfl

variable (r : Reader n)

variable {r : Reader n}

theorem index_lt_of_ne (h : r.inputSize ≠ 0) : r.inputIndex < r.inputSize :=
  r.index_lt.resolve_right fun hzero => h hzero.2

/-- The next byte becomes the current one. -/
def pull (h : r.inputSize ≠ 0) : Reader n where
  buffer := r.buffer
  inputSize := if r.inputIndex + 1 = r.inputSize then 0 else r.inputSize
  inputIndex := if r.inputIndex + 1 = r.inputSize then 0 else r.inputIndex + 1
  currentByte := r.buffer.get ⟨r.inputIndex,
    ((index_lt_of_ne h).trans_le r.size_le).trans_eq r.length_buffer.symm⟩
  bitIndex := 0x80
  length_buffer := r.length_buffer
  size_le := by
    have := r.size_le
    split <;> omega
  index_lt := by
    have := index_lt_of_ne h
    split <;> omega
  bitIndex_mem := .inr (by decide)

/-- The reader at its next bit, unless it is out of bits. -/
def refill : Option (Reader n) :=
  if r.bitIndex = 0 then
    if h : r.inputSize = 0 then none else some (r.pull h)
  else some r

/-- `bit_index >>= 1`. -/
def shift : Reader n where
  buffer := r.buffer
  inputSize := r.inputSize
  inputIndex := r.inputIndex
  currentByte := r.currentByte
  bitIndex := r.bitIndex >>> 1
  length_buffer := r.length_buffer
  size_le := r.size_le
  index_lt := r.index_lt
  bitIndex_mem := r.bitIndex_mem.elim (fun h => .inl (by rw [h]; rfl)) shiftRight_mem

def getBitsLoop : Nat → UInt16 → Reader n → Option UInt16 × Reader n
  | 0, accumulator, r => (some accumulator, r)
  | i + 1, accumulator, r =>
    match r.refill with
    | none => (none, r)
    | some r => getBitsLoop i (pushBit accumulator (r.currentByte &&& r.bitIndex != 0)) r.shift

/-- `get_bits`; no value stands for `NO_BITS`, which no fifteen bits make up. -/
def getBits (count : Nat) : Option UInt16 × Reader n :=
  if 15 < count then (none, r)
  -- bits that are gathered are not remembered, so it suspends before it takes the first one
  else if r.inputSize = 0 ∧ r.bitIndex.toNat < 1 <<< (count - 1) then (none, r)
  else getBitsLoop count 0 r

def fill (bytes : Bytes) (h : r.inputSize + bytes.length ≤ n) : Reader n where
  buffer := r.buffer.take r.inputSize ++ bytes ++ r.buffer.drop (r.inputSize + bytes.length)
  inputSize := r.inputSize + bytes.length
  inputIndex := r.inputIndex
  currentByte := r.currentByte
  bitIndex := r.bitIndex
  length_buffer := by
    have := r.length_buffer
    rw [length_append, length_append, length_take, length_drop]
    omega
  size_le := h
  index_lt := by
    have := r.index_lt
    omega
  bitIndex_mem := r.bitIndex_mem

theorem fill_fits (inBuf : Bytes) : r.inputSize + (inBuf.take (n - r.inputSize)).length ≤ n := by
  have := r.size_le
  rw [length_take]
  omega

/-- `heatshrink_decoder_sink`: the result, the number of bytes sunk and the reader. -/
def sink (inBuf : Bytes) : SinkRes × Nat × Reader n :=
  if n - r.inputSize = 0 then (.full, 0, r)
  else (.ok, min (n - r.inputSize) inBuf.length,
    r.fill (inBuf.take (n - r.inputSize)) (r.fill_fits inBuf))

def unread : Bytes := (r.buffer.take r.inputSize).drop r.inputIndex

def pending : List Bool := bitsFrom r.bitIndex r.currentByte ++ bytesBits r.unread

theorem length_unread : r.unread.length = r.inputSize - r.inputIndex := by
  have := r.size_le
  have := r.length_buffer
  rw [unread, length_drop, length_take]
  omega

theorem pending_reset : (reset n).pending = [] := by
  rw [pending, reset, bitsFrom_zero, unread, take_zero, drop_nil]
  rfl

theorem unread_of_size_zero (h : r.inputSize = 0) : r.unread = [] := by
  rw [unread, h, take_zero, drop_nil]

theorem size_zero_of_pending_lt (h : r.pending.length < 8) : r.inputSize = 0 := by
  have := r.index_lt
  rw [pending, length_append, length_bytesBits, length_unread] at h
  omega

theorem pull_unread (h : r.inputSize ≠ 0) :
    r.unread = (r.pull h).currentByte :: (r.pull h).unread := by
  have hlt := index_lt_of_ne h
  have hlen : r.inputIndex < (r.buffer.take r.inputSize).length := by
    have := r.size_le
    have := r.length_buffer
    rw [length_take]
    omega
  rw [unread, drop_eq_getElem_cons hlen, getElem_take]
  refine congrArg (List.cons _) ?_
  unfold unread pull
  dsimp only
  split
  · next hend =>
    rw [take_zero, drop_nil, drop_eq_nil_of_le]
    rw [length_take]
    omega
  · rfl

theorem exists_refill (h : r.pending ≠ []) :
    ∃ r', r.refill = some r' ∧ r'.bitIndex ∈ bitMasks ∧ r'.pending = r.pending := by
  by_cases hindex : r.bitIndex = 0
  · have hsize : r.inputSize ≠ 0 := by
      intro hzero
      refine h ?_
      rw [pending, hindex, unread_of_size_zero hzero, bitsFrom_zero]
      rfl
    refine ⟨r.pull hsize, ?_, ?_, ?_⟩
    · rw [refill, if_pos hindex, dif_neg hsize]
    · exact mem_cons_self
    · rw [pending, pending, hindex, bitsFrom_zero, nil_append, r.pull_unread hsize, bytesBits_cons]
      rfl
  · exact ⟨r, if_neg hindex, r.bitIndex_mem.resolve_left hindex, rfl⟩

theorem pending_eq_cons (h : r.bitIndex ∈ bitMasks) :
    r.pending = (r.currentByte &&& r.bitIndex != 0) :: r.shift.pending := by
  rw [pending, bitsFrom_eq_cons h, cons_append]
  rfl

theorem getBitsLoop_eq (count : Nat) (accumulator : UInt16) (h : count ≤ r.pending.length) :
    ∃ r', getBitsLoop count accumulator r =
        (some ((r.pending.take count).foldl pushBit accumulator), r') ∧
      r'.pending = r.pending.drop count := by
  induction count generalizing r accumulator with
  | zero => exact ⟨r, rfl, rfl⟩
  | succ i ih =>
    have hne : r.pending ≠ [] := fun hnil => by
      rw [hnil] at h
      exact absurd h (by simp only [length_nil]; omega)
    obtain ⟨s, hrefill, hmask, hpending⟩ := exists_refill hne
    rw [← hpending, pending_eq_cons hmask] at h ⊢
    obtain ⟨r', hloop, hrest⟩ := ih (r := s.shift)
      (pushBit accumulator (s.currentByte &&& s.bitIndex != 0)) (Nat.le_of_succ_le_succ h)
    refine ⟨r', ?_, hrest⟩
    rw [getBitsLoop, hrefill]
    exact hloop

theorem getBits_of_le {count : Nat} (hpos : 0 < count) (hle : count ≤ 8)
    (h : count ≤ r.pending.length) :
    ∃ r', r.getBits count = (some ((r.pending.take count).foldl pushBit 0), r') ∧
      r'.pending = r.pending.drop count := by
  obtain ⟨r', hloop, hrest⟩ := getBitsLoop_eq count 0 h
  refine ⟨r', ?_, hrest⟩
  rw [getBits, if_neg (by omega), if_neg ?_, hloop]
  rintro ⟨hsize, hlt⟩
  rw [lt_shiftLeft_iff r.bitIndex_mem r.currentByte hpos hle] at hlt
  rw [pending, unread_of_size_zero hsize, bytesBits_nil, append_nil] at h
  omega

theorem getBits_of_lt {count : Nat} (hle : count ≤ 8)
    (h : r.pending.length < count) : r.getBits count = (none, r) := by
  have hsize := size_zero_of_pending_lt (h.trans_le hle)
  rw [pending, unread_of_size_zero hsize, bytesBits_nil, append_nil] at h
  have hlt := (lt_shiftLeft_iff r.bitIndex_mem r.currentByte (Nat.zero_lt_of_lt h) hle).mpr h
  rw [getBits, if_neg (by omega), if_pos ⟨hsize, hlt⟩]

theorem pending_fill {bytes : Bytes} (h : r.inputSize + bytes.length ≤ n) :
    (r.fill bytes h).pending = r.pending ++ bytesBits bytes := by
  have hindex := r.index_lt
  have hfront : (r.buffer.take r.inputSize).length = r.inputSize := by
    rw [length_take, r.length_buffer]
    exact Nat.min_eq_left r.size_le
  have hunread : (r.fill bytes h).unread = r.unread ++ bytes := by
    have hle : r.inputIndex ≤ (r.buffer.take r.inputSize).length := by omega
    rw [unread, fill, take_left' (by rw [length_append, hfront])]
    exact drop_append_of_le_length hle
  rw [pending, hunread, bytesBits_append, ← append_assoc]
  rfl

theorem pending_sink (inBuf : Bytes) :
    (r.sink inBuf).2.2.pending = r.pending ++ bytesBits (inBuf.take (r.sink inBuf).2.1) := by
  unfold sink
  split
  · rw [take_zero, bytesBits_nil, append_nil]
  · rw [pending_fill]
    refine congrArg (fun bytes => r.pending ++ bytesBits bytes) ?_
    exact take_eq_take_min

theorem sink_of_size_zero (h : r.inputSize = 0) (hpos : 0 < n) (inBuf : Bytes) :
    (r.sink inBuf).1 = .ok ∧ (r.sink inBuf).2.1 = min n inBuf.length := by
  rw [sink, if_neg (by omega)]
  refine ⟨rfl, ?_⟩
  change min (n - r.inputSize) inBuf.length = _
  rw [h, Nat.sub_zero]

end Reader
end Compress
end NikitaFirmware
