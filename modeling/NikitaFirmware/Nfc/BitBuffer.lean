import Mathlib.Data.List.Basic

/-!
# Bit buffers

The buffers of `toolbox/bit_buffer.c`. `data` has as many bytes as the capacity, whatever the
size. An operation has no result where a `furi_check` fails, and where a size that it computes by
a subtraction would be negative.
-/

namespace NikitaFirmware.Nfc

open List
abbrev Byte := UInt8

structure BitBuffer where
  data : List Byte
  parity : List Byte
  sizeBits : Nat

def memcpy (dest : List Byte) (offset : Nat) (src : List Byte) : List Byte :=
  dest.take offset ++ src ++ dest.drop (offset + src.length)

theorem forall_byte {P : Byte → Prop} (h : ∀ n : Fin 256, P (UInt8.ofNat n)) (b : Byte) : P b := by
  have hb := h ⟨b.toNat, b.toNat_lt⟩
  rwa [UInt8.ofNat_toNat] at hb

namespace BitBuffer

def capacityBytes (b : BitBuffer) : Nat := b.data.length

def sizeBytes (b : BitBuffer) : Nat := b.sizeBits / 8 + if b.sizeBits % 8 = 0 then 0 else 1

def alloc (capacityBytes : Nat) : BitBuffer where
  data := replicate capacityBytes 0
  parity := replicate ((capacityBytes + 7) / 8) 0
  sizeBits := 0

def reset (b : BitBuffer) : BitBuffer where
  data := replicate b.data.length 0
  parity := replicate b.parity.length 0
  sizeBits := 0

def copy (b other : BitBuffer) : Option BitBuffer :=
  if b.capacityBytes * 8 < other.sizeBits then none
  else some { b with
    data := memcpy b.data 0 (other.data.take other.sizeBytes)
    sizeBits := other.sizeBits }

def copyRight (b other : BitBuffer) (startIndex : Nat) : Option BitBuffer :=
  if other.sizeBytes ≤ startIndex then none
  else if b.capacityBytes < other.sizeBytes - startIndex then none
  else some { b with
    data := memcpy b.data 0 ((other.data.take other.sizeBytes).drop startIndex)
    sizeBits := other.sizeBits - startIndex * 8 }

def copyLeft (b other : BitBuffer) (endIndex : Nat) : Option BitBuffer :=
  if b.capacityBytes < endIndex then none
  else if other.sizeBytes < endIndex then none
  else some { b with
    data := memcpy b.data 0 (other.data.take endIndex)
    sizeBits := endIndex * 8 }

def copyBytes (b : BitBuffer) (bytes : List Byte) : Option BitBuffer :=
  if b.capacityBytes < bytes.length then none
  else some { b with data := memcpy b.data 0 bytes, sizeBits := bytes.length * 8 }

/-- `bit_buffer_append_right`; the size of what is appended is the one of `other` less
`startIndex`. -/
def appendRight (b other : BitBuffer) (startIndex : Nat) : Option BitBuffer :=
  if other.sizeBits < startIndex * 8 then none
  else if b.capacityBytes < b.sizeBytes + (other.sizeBytes - startIndex) then none
  else some { b with
    data := memcpy b.data b.sizeBytes ((other.data.take other.sizeBytes).drop startIndex)
    sizeBits := b.sizeBits + (other.sizeBits - startIndex * 8) }

def append (b other : BitBuffer) : Option BitBuffer := b.appendRight other 0

def appendByte (b : BitBuffer) (byte : Byte) : Option BitBuffer :=
  if b.capacityBytes < b.sizeBytes + 1 then none
  else some { b with
    data := memcpy b.data b.sizeBytes [byte]
    sizeBits := (b.sizeBytes + 1) * 8 }

def startsWithByte (b : BitBuffer) (byte : Byte) : Bool :=
  b.sizeBytes ≠ 0 && b.data.head? = some byte

def getByte (b : BitBuffer) (index : Nat) : Option Byte := b.data[index]?

def setByte (b : BitBuffer) (index : Nat) (byte : Byte) : Option BitBuffer :=
  if b.sizeBytes ≤ index then none else some { b with data := b.data.set index byte }

def setSizeBytes (b : BitBuffer) (newSizeBytes : Nat) : Option BitBuffer :=
  if b.capacityBytes < newSizeBytes then none
  else some { b with sizeBits := newSizeBytes * 8 }

def setSize (b : BitBuffer) (newSize : Nat) : Option BitBuffer :=
  if b.capacityBytes * 8 < newSize then none else some { b with sizeBits := newSize }

def setParity (parity : List Byte) (index : Nat) (bit : Bool) : List Byte :=
  let mask : Byte := (if bit then 1 else 0) <<< UInt8.ofNat (index % 8)
  if index % 8 = 0 then parity.set (index / 8) mask
  else parity.set (index / 8) (parity.getD (index / 8) 0 ||| mask)

def setByteWithParity (b : BitBuffer) (index : Nat) (byte : Byte) (parity : Bool) :
    Option BitBuffer :=
  if b.sizeBits / 8 ≤ index then none
  else some { b with data := b.data.set index byte, parity := setParity b.parity index parity }

def appendBytes (b : BitBuffer) (bytes : List Byte) : Option BitBuffer :=
  if b.capacityBytes < b.sizeBytes + bytes.length then none
  else some { b with
    data := memcpy b.data b.sizeBytes bytes
    sizeBits := b.sizeBits + bytes.length * 8 }

def writeBytesMid (b : BitBuffer) (startIndex sizeBytes : Nat) : Option (List Byte) :=
  if b.sizeBytes < startIndex + sizeBytes then none
  else some ((b.data.drop startIndex).take sizeBytes)

def parityBit (b : BitBuffer) (index : Nat) : Bool :=
  (b.parity.getD (index / 8) 0).toNat.testBit (index % 8)

structure WholeBytes (b : BitBuffer) : Prop where
  whole : b.sizeBits % 8 = 0
  le : b.sizeBytes ≤ b.capacityBytes

def bytes (b : BitBuffer) : List Byte := b.data.take b.sizeBytes

def ofBytes (bytes : List Byte) : BitBuffer where
  data := bytes
  parity := replicate ((bytes.length + 7) / 8) 0
  sizeBits := bytes.length * 8

variable {b c other : BitBuffer} {byte : Byte} {i n : Nat} {bs : List Byte}

theorem WholeBytes.sizeBits_eq (h : b.WholeBytes) : b.sizeBits = b.sizeBytes * 8 := by
  have hw := h.whole
  rw [sizeBytes, if_pos hw]
  omega

theorem WholeBytes.length_bytes (h : b.WholeBytes) : b.bytes.length = b.sizeBytes := by
  rw [bytes, length_take]
  exact Nat.min_eq_left h.le

theorem sizeBytes_of_sizeBits (h : b.sizeBits = n * 8) : b.sizeBytes = n := by
  rw [sizeBytes, h]
  simp

theorem wholeBytes_of_sizeBits (h : b.sizeBits = n * 8) (hn : n ≤ b.capacityBytes) :
    b.WholeBytes where
  whole := by rw [h, Nat.mul_mod_left]
  le := by rw [sizeBytes_of_sizeBits h]; exact hn

theorem wholeBytes_ofBytes (bs : List Byte) : (ofBytes bs).WholeBytes :=
  wholeBytes_of_sizeBits rfl (Nat.le_refl _)

variable {dest src : List Byte}

theorem length_memcpy {offset : Nat}
    (h : offset + src.length ≤ dest.length) : (memcpy dest offset src).length = dest.length := by
  rw [memcpy, length_append, length_append, length_take, length_drop]
  omega

theorem getElem?_memcpy_of_lt {offset k : Nat}
    (h : offset ≤ dest.length) (hk : k < offset) : (memcpy dest offset src)[k]? = dest[k]? := by
  rw [memcpy, append_assoc, getElem?_append_left (by rw [length_take]; omega),
    getElem?_take_of_lt hk]

theorem getElem?_memcpy_of_le {offset k : Nat}
    (h : offset ≤ dest.length) (hk : offset + src.length ≤ k) :
    (memcpy dest offset src)[k]? = dest[k]? := by
  have hlen : (dest.take offset ++ src).length = offset + src.length := by
    rw [length_append, length_take, Nat.min_eq_left h]
  rw [memcpy, getElem?_append_right (by omega), getElem?_drop, hlen]
  congr 1
  omega

theorem drop_take_memcpy {offset : Nat} (h : offset ≤ dest.length) :
    ((memcpy dest offset src).drop offset).take src.length = src := by
  have hlen : (dest.take offset).length = offset := by
    rw [length_take, Nat.min_eq_left h]
  have hdrop : (dest.take offset ++ (src ++ dest.drop (offset + src.length))).drop offset =
      src ++ dest.drop (offset + src.length) := by
    rw [drop_append, hlen, Nat.sub_self, drop_zero, drop_eq_nil_of_le (by omega),
      nil_append]
  rw [memcpy, append_assoc, hdrop, take_left]

theorem take_memcpy {offset : Nat} (h : offset ≤ dest.length) :
    (memcpy dest offset src).take (offset + src.length) = dest.take offset ++ src := by
  have hlen : (dest.take offset ++ src).length = offset + src.length := by
    rw [length_append, length_take, Nat.min_eq_left h]
  rw [memcpy, ← hlen, take_left]

/-- What an operation leaves behind: whole bytes in a buffer of the same capacity. -/
structure Holds (b : BitBuffer) (capacity : Nat) (bs : List Byte) : Prop where
  whole : b.WholeBytes
  capacity : b.capacityBytes = capacity
  bytes : b.bytes = bs

theorem Holds.sizeBytes (h : b.Holds n bs) : b.sizeBytes = bs.length := by
  rw [← h.bytes, h.whole.length_bytes]

theorem Holds.length_le (h : b.Holds n bs) : bs.length ≤ n := by
  rw [← h.sizeBytes, ← h.capacity]
  exact h.whole.le

theorem Holds.take (h : b.Holds n bs) : b.data.take bs.length = bs := by
  have hb := h.bytes
  rwa [BitBuffer.bytes, h.sizeBytes] at hb

theorem Holds.sizeBits (h : b.Holds n bs) : b.sizeBits = bs.length * 8 := by
  rw [h.whole.sizeBits_eq, h.sizeBytes]

theorem holds_of_take (hs : b.sizeBits = bs.length * 8) (hc : b.capacityBytes = n)
    (hle : bs.length ≤ n) (htake : b.data.take bs.length = bs) : b.Holds n bs where
  whole := wholeBytes_of_sizeBits hs (by rw [hc]; exact hle)
  capacity := hc
  bytes := by rw [BitBuffer.bytes, sizeBytes_of_sizeBits hs, htake]

theorem holds_ofBytes (bs : List Byte) : (ofBytes bs).Holds bs.length bs :=
  holds_of_take rfl rfl (Nat.le_refl _) take_length

theorem holds_reset (b : BitBuffer) : b.reset.Holds b.capacityBytes [] :=
  holds_of_take rfl (length_replicate ..) (Nat.zero_le _) rfl

theorem holds_alloc (n : Nat) : (alloc n).Holds n [] :=
  holds_of_take rfl (length_replicate ..) (Nat.zero_le _) rfl

theorem holds_memcpy {offset : Nat} {src : List Byte} (hlen : offset + src.length ≤ b.data.length)
    (hbs : bs = b.data.take offset ++ src) :
    (BitBuffer.mk (memcpy b.data offset src) b.parity (bs.length * 8)).Holds b.capacityBytes bs := by
  have hbl : bs.length = offset + src.length := by
    rw [hbs, length_append, length_take, Nat.min_eq_left (by omega)]
  refine holds_of_take rfl (length_memcpy hlen) ?_ ?_
  · rw [hbl]
    exact hlen
  · show (memcpy b.data offset src).take bs.length = bs
    rw [hbl, take_memcpy (by omega), ← hbs]

theorem Holds.appendByte (h : b.Holds n bs) (hlt : bs.length < n) (byte : Byte) :
    ∃ c, b.appendByte byte = some c ∧ c.Holds n (bs ++ [byte]) := by
  have hcap := h.capacity
  refine ⟨_, if_neg ?_, ?_⟩
  · rw [hcap, h.sizeBytes]
    omega
  · have hbits : (b.sizeBytes + 1) * 8 = (bs ++ [byte]).length * 8 := by
      rw [h.sizeBytes, length_append, length_singleton]
    rw [hbits, ← hcap]
    refine holds_memcpy ?_ ?_
    · rw [h.sizeBytes, length_singleton]
      change bs.length + 1 ≤ b.capacityBytes
      omega
    · rw [h.sizeBytes, h.take]

variable {cs : List Byte}

theorem Holds.appendRight {m : Nat} (h : b.Holds n bs) (ho : other.Holds m cs)
    (hi : i ≤ cs.length) (hle : bs.length + (cs.length - i) ≤ n) :
    ∃ c, b.appendRight other i = some c ∧ c.Holds n (bs ++ cs.drop i) := by
  have hcap := h.capacity
  refine ⟨_, (if_neg ?_).trans (if_neg ?_), ?_⟩
  · rw [ho.sizeBits]
    omega
  · rw [hcap, h.sizeBytes, ho.sizeBytes]
    omega
  · have hsrc : (other.data.take other.sizeBytes).drop i = cs.drop i := by
      rw [ho.sizeBytes, ho.take]
    have hbits : b.sizeBits + (other.sizeBits - i * 8) = (bs ++ cs.drop i).length * 8 := by
      rw [h.sizeBits, ho.sizeBits, length_append, length_drop]
      omega
    rw [hsrc, hbits, ← hcap]
    refine holds_memcpy ?_ ?_
    · rw [h.sizeBytes, length_drop]
      change bs.length + (cs.length - i) ≤ b.capacityBytes
      omega
    · rw [h.sizeBytes, h.take]

theorem Holds.append {m : Nat} (h : b.Holds n bs) (ho : other.Holds m cs)
    (hle : bs.length + cs.length ≤ n) :
    ∃ c, b.append other = some c ∧ c.Holds n (bs ++ cs) :=
  h.appendRight ho (Nat.zero_le _) hle

theorem Holds.copyRight {m : Nat} (hcap : b.capacityBytes = n)
    (ho : other.Holds m cs) (hi : i < cs.length) (hle : cs.length - i ≤ n) :
    ∃ c, b.copyRight other i = some c ∧ c.Holds n (cs.drop i) := by
  refine ⟨_, (if_neg ?_).trans (if_neg ?_), ?_⟩
  · rw [ho.sizeBytes]
    omega
  · rw [hcap, ho.sizeBytes]
    omega
  · have hsrc : (other.data.take other.sizeBytes).drop i = cs.drop i := by
      rw [ho.sizeBytes, ho.take]
    have hbits : other.sizeBits - i * 8 = (cs.drop i).length * 8 := by
      rw [ho.sizeBits, length_drop]
      omega
    rw [hsrc, hbits, ← hcap]
    refine holds_memcpy ?_ rfl
    rw [length_drop]
    change 0 + (cs.length - i) ≤ b.capacityBytes
    omega

theorem Holds.copyLeft {m : Nat} (hcap : b.capacityBytes = n)
    (ho : other.Holds m cs) (hi : i ≤ cs.length) (hle : i ≤ n) :
    ∃ c, b.copyLeft other i = some c ∧ c.Holds n (cs.take i) := by
  refine ⟨_, (if_neg ?_).trans (if_neg ?_), ?_⟩
  · rw [hcap]
    omega
  · rw [ho.sizeBytes]
    omega
  · have hsrc : other.data.take i = cs.take i := by
      have htake := congrArg (List.take i) ho.take
      rwa [take_take, Nat.min_eq_left hi] at htake
    have hbits : i * 8 = (cs.take i).length * 8 := by
      rw [length_take]
      omega
    rw [hsrc, hbits, ← hcap]
    refine holds_memcpy ?_ rfl
    rw [length_take]
    change 0 + min i cs.length ≤ b.capacityBytes
    omega

theorem Holds.copy {m : Nat} (hcap : b.capacityBytes = n) (ho : other.Holds m cs)
    (hle : cs.length ≤ n) : ∃ c, b.copy other = some c ∧ c.Holds n cs := by
  refine ⟨_, if_neg ?_, ?_⟩
  · rw [hcap, ho.sizeBits]
    omega
  · rw [ho.sizeBytes, ho.take, ho.sizeBits, ← hcap]
    refine holds_memcpy ?_ rfl
    change 0 + cs.length ≤ b.capacityBytes
    omega

theorem Holds.setSizeBytes (h : b.Holds n bs) (hi : i ≤ bs.length) :
    ∃ c, b.setSizeBytes i = some c ∧ c.Holds n (bs.take i) ∧ c.data = b.data := by
  have hlen : (bs.take i).length = i := by
    rw [length_take, Nat.min_eq_left hi]
  have hle := h.length_le
  refine ⟨_, if_neg ?_, ?_, rfl⟩
  · rw [h.capacity]
    omega
  · refine holds_of_take ?_ h.capacity (by omega) ?_
    · rw [hlen]
    · have htake := congrArg (List.take i) h.take
      rw [take_take, Nat.min_eq_left hi] at htake
      rw [hlen]
      exact htake

theorem holds_of_copyBytes (h : b.copyBytes bs = some c) : c.Holds b.capacityBytes bs := by
  rw [copyBytes] at h
  split at h
  · cases h
  case isFalse hle =>
    obtain rfl := Option.some.inj h
    refine holds_memcpy ?_ rfl
    change 0 + bs.length ≤ b.capacityBytes
    omega

theorem Holds.of_appendBytes (hb : b.Holds n bs)
    (h : b.appendBytes cs = some c) : c.Holds n (bs ++ cs) := by
  rw [appendBytes] at h
  split at h
  · cases h
  case isFalse hle =>
    obtain rfl := Option.some.inj h
    have hbits : b.sizeBits + cs.length * 8 = (bs ++ cs).length * 8 := by
      rw [hb.sizeBits, length_append]
      omega
    rw [hbits, ← hb.capacity]
    refine holds_memcpy ?_ ?_
    · change b.sizeBytes + cs.length ≤ b.capacityBytes
      omega
    · rw [hb.sizeBytes, hb.take]

theorem Holds.appendBytes (h : b.Holds n bs) (cs : List Byte) (hle : bs.length + cs.length ≤ n) :
    ∃ c, b.appendBytes cs = some c ∧ c.Holds n (bs ++ cs) := by
  have hsome : b.appendBytes cs = some ⟨memcpy b.data b.sizeBytes cs, b.parity,
      b.sizeBits + cs.length * 8⟩ := by
    refine if_neg ?_
    rw [h.capacity, h.sizeBytes]
    omega
  exact ⟨_, hsome, h.of_appendBytes hsome⟩

theorem Holds.appendBytes_eq_none (h : b.Holds n bs)
    (hlt : n < bs.length + cs.length) : b.appendBytes cs = none := by
  refine if_pos ?_
  rw [h.capacity, h.sizeBytes]
  exact hlt

theorem Holds.setByte (h : b.Holds n bs) (hi : i < bs.length) (byte : Byte) :
    ∃ c, b.setByte i byte = some c ∧ c.Holds n (bs.set i byte) := by
  refine ⟨_, if_neg (by rw [h.sizeBytes]; omega), ?_⟩
  refine holds_of_take ?_ ?_ ?_ ?_
  · rw [length_set]
    exact h.sizeBits
  · exact (length_set ..).trans h.capacity
  · rw [length_set]
    exact h.length_le
  · rw [length_set]
    change (b.data.set i byte).take bs.length = _
    rw [take_set, h.take]

theorem Holds.getByte (h : b.Holds n bs) (hi : i < bs.length) : b.getByte i = bs[i]? := by
  rw [BitBuffer.getByte, ← h.take, getElem?_take]
  rw [if_pos hi]

theorem Holds.startsWithByte (h : b.Holds n (byte :: bs)) (c : Byte) :
    b.startsWithByte c = decide (byte = c) := by
  have htake := h.take
  cases hd : b.data with
  | nil =>
    rw [hd, take_nil] at htake
    cases htake
  | cons x xs =>
    rw [hd, length_cons, take_succ_cons] at htake
    rw [BitBuffer.startsWithByte, hd, h.sizeBytes, (cons.inj htake).1]
    simp

end BitBuffer

end NikitaFirmware.Nfc
