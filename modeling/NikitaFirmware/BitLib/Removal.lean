import NikitaFirmware.BitLib.Slices

/-!
# Removing every nth bit

`bit_lib_remove_bit_every_nth` collects the bits that stay and writes them eight at a time into the
array it is reading. Behind the bits that are written the array is still the original one, and no
more bits are written than have been read, so every bit is read before it is overwritten.
-/

namespace NikitaFirmware.BitLib
open Foundations Foundations.BitArray Foundations.BitValue Foundations.Checked List

/-- The locals of `bit_lib_remove_bit_every_nth`, less the loop's own counter. -/
structure Removal where
  data : Bytes
  resultCounter : Nat
  bitBuffer : UInt8
  bitCounter : Nat

def Removal.push (s : Removal) (bit : Bool) : Removal :=
  { s with
    bitBuffer := UInt8.ofNat (s.bitBuffer.toNat <<< 1 ||| bit.toNat)
    bitCounter := s.bitCounter + 1 }

/-- The bit of a round, which is left out if it is an `n`th one. -/
def removeRead (position n counter : Nat) (s : Removal) : Result Removal :=
  if (counter + 1) % n ≠ 0 then do
    let bit ← getBit (memory s.data) (position + counter)
    return s.push bit
  else .ok s

/-- A full buffer is written. -/
def removeWrite (position : Nat) (s : Removal) : Result Removal :=
  if s.bitCounter = 8 then do
    let data ← setBits s.data (position + s.resultCounter) s.bitBuffer 8
    return ⟨data, s.resultCounter + 8, 0, 0⟩
  else .ok s

def removeRound (position n counter : Nat) (s : Removal) : Result Removal := do
  let s ← removeRead position n counter s
  removeWrite position s

def removeLoop (position n : Nat) : Nat → Nat → Removal → Result Removal
  | 0, _, s => .ok s
  | rounds + 1, counter, s => do
    let s ← removeRound position n counter s
    removeLoop position n rounds (counter + 1) s

/-- `bit_lib_remove_bit_every_nth`: the array and the number of the bits that stay. -/
def removeBitEveryNth (data : Bytes) (position length n : Nat) : Result (Bytes × Nat) := do
  let s ← removeLoop position n length 0 ⟨data, 0, 0, 0⟩
  if s.bitCounter ≠ 0 then do
    let data ← setBits s.data (position + s.resultCounter) s.bitBuffer s.bitCounter
    return (data, s.resultCounter + s.bitCounter)
  else return (s.data, s.resultCounter)

/-- An array with `count` bits written from a position on, all others unchanged. -/
structure Put (bytes : Bytes) (position : Nat) (bit : Nat → Bool) (count : Nat)
    (bytes' : Bytes) : Prop where
  length : bytes'.length = bytes.length
  bits : ∀ k, high bytes' k =
    if position ≤ k ∧ k < position + count then bit (k - position) else high bytes k

variable {bytes bytes' : Bytes} {position n len count counter : Nat} {bit other : Nat → Bool}
  {s : Removal}

theorem Put.start (bytes : Bytes) (position : Nat) (bit : Nat → Bool) :
    Put bytes position bit 0 bytes := by
  refine ⟨rfl, fun k => ?_⟩
  rw [if_neg (by omega)]

theorem Put.congr (h : Put bytes position bit count bytes') (hbit : ∀ k < count, bit k = other k) :
    Put bytes position other count bytes' := by
  refine ⟨h.length, fun k => ?_⟩
  rw [h.bits]
  by_cases hk : position ≤ k ∧ k < position + count
  · rw [if_pos hk, if_pos hk, hbit (k - position) (by omega)]
  · rw [if_neg hk, if_neg hk]

theorem Put.high_behind (h : Put bytes position bit count bytes') {k : Nat}
    (hk : position + count ≤ k) : high bytes' k = high bytes k := by
  rw [h.bits, if_neg (by omega)]

theorem Put.setBits {byte : UInt8} (h : Put bytes position bit count bytes')
    (hbyte : byte.toNat = value (fun k => bit (count + k)) len) (hpos : 0 < len)
    (hle : len ≤ 8) (hroom : position + count + len ≤ 8 * bytes.length) :
    ∃ bytes'', BitLib.setBits bytes' (position + count) byte len = .ok bytes'' ∧
      Put bytes position bit (count + len) bytes'' := by
  obtain ⟨bytes'', hset, hlen, hbits⟩ :=
    setBits_eq byte hpos hle (by rw [h.length]; exact hroom)
  refine ⟨bytes'', hset, hlen.trans h.length, fun k => ?_⟩
  rw [hbits, h.bits]
  by_cases hnew : position + count ≤ k ∧ k < position + count + len
  · have hindex : count + (len - 1 - (position + count + len - 1 - k)) = k - position := by
      omega
    rw [if_pos hnew, if_pos (by omega), hbyte, testBit_value, hindex, decide_eq_true (by omega),
      Bool.true_and]
  · rw [if_neg hnew]
    by_cases hold : position ≤ k ∧ k < position + count
    · rw [if_pos hold, if_pos (by omega)]
    · rw [if_neg hold, if_neg (by omega)]

/-- The bits that stay of the first ones from a position on, in their order. -/
def kept (bytes : Bytes) (position n : Nat) (counter : Nat) : List Bool :=
  ((List.range counter).filter fun j => (j + 1) % n ≠ 0).map fun j => high bytes (position + j)

theorem kept_succ_of_ne (h : (counter + 1) % n ≠ 0) : kept bytes position n (counter + 1) =
      kept bytes position n counter ++ [high bytes (position + counter)] := by
  have hlast : [counter].filter (fun j => (j + 1) % n ≠ 0) = [counter] :=
    filter_cons_of_pos (decide_eq_true h)
  rw [kept, range_succ, filter_append, map_append, hlast]
  rfl

theorem kept_succ_of_eq (h : (counter + 1) % n = 0) :
    kept bytes position n (counter + 1) = kept bytes position n counter := by
  have hlast : [counter].filter (fun j => (j + 1) % n ≠ 0) = [] :=
    filter_cons_of_neg fun hne => of_decide_eq_true hne h
  rw [kept, range_succ, filter_append, map_append, hlast]
  exact append_nil _

theorem length_kept_le (bytes : Bytes) (position n counter : Nat) :
    (kept bytes position n counter).length ≤ counter := by
  rw [kept, length_map]
  exact (length_filter_le _ _).trans_eq length_range

def keptBit (bytes : Bytes) (position n counter k : Nat) : Bool :=
  (kept bytes position n counter).getD k false

theorem keptBit_succ_of_lt (h : (counter + 1) % n ≠ 0) {k : Nat}
    (hk : k < (kept bytes position n counter).length) :
    keptBit bytes position n (counter + 1) k = keptBit bytes position n counter k := by
  rw [keptBit, kept_succ_of_ne h, getD_append _ _ _ _ hk, keptBit]

theorem keptBit_succ_last (h : (counter + 1) % n ≠ 0) :
    keptBit bytes position n (counter + 1) (kept bytes position n counter).length =
      high bytes (position + counter) := by
  rw [keptBit, kept_succ_of_ne h, getD_append_right _ _ _ _ (Nat.le_refl _), Nat.sub_self]
  rfl

/-- What is read is written, except for the last bits, which are in the buffer. -/
structure Holds (bytes : Bytes) (position n counter : Nat) (s : Removal) : Prop where
  put : Put bytes position (keptBit bytes position n counter) s.resultCounter s.data
  count : s.resultCounter + s.bitCounter = (kept bytes position n counter).length
  buffer : s.bitBuffer.toNat =
    value (fun k => keptBit bytes position n counter (s.resultCounter + k)) s.bitCounter

theorem toNat_push {buffer : UInt8} (hbuffer : buffer.toNat = value bit count) (hroom : count < 8) :
    (UInt8.ofNat (buffer.toNat <<< 1 ||| (bit count).toNat)).toNat = value bit (count + 1) := by
  have hlt : value bit (count + 1) < 256 :=
    Nat.lt_of_lt_of_le (value_lt _ _) (Nat.pow_le_pow_right (by decide) (by omega : count + 1 ≤ 8))
  have hjoin := shiftLeft_or_value bit count 1
  rw [value_succ (fun k => bit (count + k)), value_zero, Nat.mul_zero, Nat.zero_add] at hjoin
  rw [UInt8.toNat_ofNat', hbuffer]
  exact (congrArg (· % 2 ^ 8) hjoin).trans (Nat.mod_eq_of_lt hlt)

theorem Holds.read (h : Holds bytes position n counter s) (hroom : s.bitCounter < 8)
    (hin : position + counter < 8 * bytes.length) :
    ∃ s', removeRead position n counter s = .ok s' ∧ Holds bytes position n (counter + 1) s' ∧
      s'.bitCounter ≤ 8 := by
  by_cases hn : (counter + 1) % n = 0
  · refine ⟨s, if_neg fun hne => hne hn, ?_, hroom.le⟩
    obtain ⟨hput, hcount, hbuffer⟩ := h
    unfold keptBit at hput hbuffer
    rw [← kept_succ_of_eq hn] at hput hcount hbuffer
    exact ⟨hput, hcount, hbuffer⟩
  · have hlen := h.put.length
    have hbehind : position + s.resultCounter ≤ position + counter := by
      have hle := length_kept_le bytes position n counter
      have hcount := h.count
      omega
    have hone : position + counter + 1 ≤ 8 * s.data.length := by
      rw [hlen]
      exact hin
    -- the bit is read before anything is written over it
    have hbit : getBit (memory s.data) (position + counter) =
        .ok (high bytes (position + counter)) := by
      have hsome : (memory s.data ((position + counter) / 8)).isSome :=
        readable_memory hone 0 Nat.one_pos
      rw [getBit_eq hsome, bitOf_memory, h.put.high_behind hbehind]
    refine ⟨s.push (high bytes (position + counter)), ?_, ⟨?_, ?_, ?_⟩, hroom⟩
    · rw [removeRead, if_pos hn, hbit]
      rfl
    · refine h.put.congr fun k hk => ?_
      rw [keptBit_succ_of_lt hn (by rw [← h.count]; omega)]
    · rw [kept_succ_of_ne hn, length_append, ← h.count]
      rfl
    · have hold : s.bitBuffer.toNat =
          value (fun k => keptBit bytes position n (counter + 1) (s.resultCounter + k))
            s.bitCounter := by
        refine h.buffer.trans (value_congr fun k hk => ?_)
        rw [keptBit_succ_of_lt hn (by rw [← h.count]; omega)]
      have hlast := @keptBit_succ_last bytes position n counter hn
      rw [← h.count] at hlast
      have hpush := toNat_push hold hroom
      rw [hlast] at hpush
      exact hpush

theorem Holds.round (h : Holds bytes position n counter s) (hroom : s.bitCounter < 8)
    (hin : position + counter < 8 * bytes.length) :
    ∃ s', removeRound position n counter s = .ok s' ∧ Holds bytes position n (counter + 1) s' ∧
      s'.bitCounter < 8 := by
  obtain ⟨s₁, hread, h₁, hle⟩ := h.read hroom hin
  rw [removeRound, hread]
  by_cases hfull : s₁.bitCounter = 8
  · have hfits : position + s₁.resultCounter + 8 ≤ 8 * bytes.length := by
      have hle := length_kept_le bytes position n (counter + 1)
      have hcount := h₁.count
      omega
    have hbuffer := h₁.buffer
    rw [hfull] at hbuffer
    obtain ⟨data, hset, hput⟩ := h₁.put.setBits hbuffer (by decide) (by decide) hfits
    refine ⟨⟨data, s₁.resultCounter + 8, 0, 0⟩, ?_, ⟨hput, ?_, rfl⟩, Nat.succ_pos _⟩
    · show removeWrite position s₁ = _
      rw [removeWrite, if_pos hfull, hset]
      rfl
    · rw [← h₁.count, hfull]
      rfl
  · refine ⟨s₁, ?_, h₁, by omega⟩
    exact if_neg hfull

theorem Holds.loop (h : Holds bytes position n counter s) (hroom : s.bitCounter < 8) (rounds : Nat)
    (hin : position + counter + rounds ≤ 8 * bytes.length) :
    ∃ s', removeLoop position n rounds counter s = .ok s' ∧
      Holds bytes position n (counter + rounds) s' ∧ s'.bitCounter < 8 := by
  induction rounds generalizing counter s with
  | zero => exact ⟨s, rfl, h, hroom⟩
  | succ rounds ih =>
    obtain ⟨s₁, hround, h₁, hroom₁⟩ := h.round hroom (by omega)
    obtain ⟨s', hloop, h', hroom'⟩ := ih h₁ hroom₁ (by omega)
    have hcounter : counter + 1 + rounds = counter + (rounds + 1) := by omega
    rw [hcounter] at h'
    refine ⟨s', ?_, h', hroom'⟩
    rw [removeLoop, hround]
    exact hloop

theorem removeBitEveryNth_eq (bytes : Bytes) (position len n : Nat)
    (h : position + len ≤ 8 * bytes.length) :
    ∃ bytes', removeBitEveryNth bytes position len n =
        .ok (bytes', (kept bytes position n len).length) ∧
      Put bytes position (keptBit bytes position n len) (kept bytes position n len).length
        bytes' := by
  have hstart : Holds bytes position n 0 ⟨bytes, 0, 0, 0⟩ := ⟨Put.start _ _ _, rfl, rfl⟩
  obtain ⟨s, hloop, hs, hroom⟩ := hstart.loop (Nat.succ_pos _) len (by omega)
  rw [Nat.zero_add] at hs
  have hcount := hs.count
  unfold removeBitEveryNth
  rw [hloop]
  by_cases hrest : s.bitCounter = 0
  · rw [hrest, Nat.add_zero] at hcount
    rw [← hcount]
    refine ⟨s.data, ?_, hs.put⟩
    show (if s.bitCounter ≠ 0 then _ else _ : Result (Bytes × Nat)) = _
    rw [if_neg fun hne => hne hrest]
    rfl
  · have hfits : position + s.resultCounter + s.bitCounter ≤ 8 * bytes.length := by
      have hle := length_kept_le bytes position n len
      omega
    obtain ⟨data, hset, hput⟩ := hs.put.setBits hs.buffer (Nat.pos_of_ne_zero hrest) hroom.le hfits
    rw [← hcount]
    refine ⟨data, ?_, hput⟩
    show (if s.bitCounter ≠ 0 then _ else _ : Result (Bytes × Nat)) = _
    rw [if_pos hrest, hset]
    rfl

/-- A slice of bits is read as their number, from a memory that need hold no other bytes; a slice
that is written is read back and no other bit changes; removing every nth bit leaves the other ones
in order, and behind them what was there. -/
theorem bitSlices_exact : (∀ (data : Memory) (position len : Nat), 0 < len → len ≤ 8 →
      Readable data position len →
      ∃ byte, getBits data position len = .ok byte ∧
        byte.toNat = value (fun k => bitOf data (position + k)) len) ∧
    Reads 16 getBits16 ∧ Reads 32 getBits32 ∧ Reads 64 getBits64 ∧
    (∀ (bytes : Bytes) (position len : Nat) (byte : UInt8), 0 < len → len ≤ 8 →
      position + len ≤ 8 * bytes.length →
      ∃ bytes' byte', setBits bytes position byte len = .ok bytes' ∧
        getBits (memory bytes') position len = .ok byte' ∧
        byte'.toNat = byte.toNat % 2 ^ len ∧ bytes'.length = bytes.length ∧
        ∀ k, k < position ∨ position + len ≤ k → high bytes' k = high bytes k) ∧
    ∀ (bytes : Bytes) (position len n : Nat), position + len ≤ 8 * bytes.length →
      ∃ bytes', removeBitEveryNth bytes position len n =
          .ok (bytes', (kept bytes position n len).length) ∧
        bytes'.length = bytes.length ∧
        ∀ k, high bytes' k =
          if position ≤ k ∧ k < position + (kept bytes position n len).length then
            (kept bytes position n len).getD (k - position) false
          else high bytes k := by
  refine ⟨fun data position len hpos hle h => getBits_eq hpos hle h, reads_getBits16,
    reads_getBits32, reads_getBits64, ?_, ?_⟩
  · intro bytes position len byte hpos hle h
    obtain ⟨bytes', hset, hlen, hbits⟩ := setBits_eq byte hpos hle h
    obtain ⟨byte', hget, hvalue⟩ := getBits_eq hpos hle
      (@readable_memory position len bytes' (by rw [hlen]; exact h))
    refine ⟨bytes', byte', hset, hget, ?_, hlen, fun k hk => ?_⟩
    · refine hvalue.trans (eq_value fun k => ?_).symm
      rw [Nat.testBit_mod_two_pow]
      by_cases hk : k < len
      · have hplace : position + len - 1 - (position + (len - 1 - k)) = k := by omega
        rw [bitOf_memory, hbits, if_pos (by omega), hplace]
      · rw [decide_eq_false hk, Bool.false_and, Bool.false_and]
    · rw [hbits, if_neg (by omega)]
  · intro bytes position len n h
    obtain ⟨bytes', hremove, hput⟩ := removeBitEveryNth_eq bytes position len n h
    exact ⟨bytes', hremove, hput.length, hput.bits⟩

example : removeBitEveryNth [0xA5, 0x3C] 2 13 4 = .ok ([0xA2, 0xEC], 10) := rfl

end NikitaFirmware.BitLib
