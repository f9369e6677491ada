import NikitaFirmware.Nfc.Keystream

/-!
# MIFARE Classic cards

`nfc/protocols/mf_classic/mf_classic.c`, as far as an emulated card needs it: blocks and sectors,
value blocks and the access conditions of a sector trailer.
-/

namespace NikitaFirmware.MfClassic
open Nfc List

/-- `MfClassicType` -/
inductive CardType
  | mini
  | k1
  | k4
  | k2
  deriving DecidableEq

def getTotalBlockNum : CardType → Nat
  | .mini => 20
  | .k1 => 64
  | .k4 => 256
  | .k2 => 128

structure Block where
  bytes : List Byte
  length_bytes : bytes.length = 16

namespace Block

theorem length_zeros : (replicate 16 (0 : Byte)).length = 16 := rfl

def part (b : Block) (start size : Nat) : List Byte := (b.bytes.drop start).take size

/-- Bytes are copied into a block. -/
def copyIn (b : Block) (start : Nat) (src : List Byte) : Block :=
  if h : start + src.length ≤ 16 then
    ⟨memcpy b.bytes start src,
      (BitBuffer.length_memcpy (by rw [b.length_bytes]; exact h)).trans b.length_bytes⟩
  else b

/-- The fields of `MfClassicSectorTrailer`. -/
def keyA (b : Block) : List Byte := b.part 0 6

def accessBits (b : Block) : List Byte := b.part 6 4

def keyB (b : Block) : List Byte := b.part 10 6

/-- A number in the byte order of the processor. -/
def word (b : Block) (start : Nat) : Word := Crypto1.bytesToNum (b.part start 4).reverse

def byte (b : Block) (i : Nat) : Byte := b.bytes.getD i 0

variable {b : Block} {start : Nat} {src : List Byte}

theorem bytes_copyIn (h : start + src.length ≤ 16) :
    (b.copyIn start src).bytes = memcpy b.bytes start src := by
  rw [copyIn, dif_pos h]

theorem part_copyIn (h : start + src.length ≤ 16) :
    (b.copyIn start src).part start src.length = src := by
  rw [part, bytes_copyIn h, BitBuffer.drop_take_memcpy (by rw [b.length_bytes]; omega)]

theorem copyIn_bytes (b c : Block) : b.copyIn 0 c.bytes = c := by
  have hbytes : (b.copyIn 0 c.bytes).bytes = c.bytes := by
    rw [bytes_copyIn (by rw [c.length_bytes]), memcpy, take_zero, nil_append,
      Nat.zero_add, c.length_bytes, drop_of_length_le (Nat.le_of_eq b.length_bytes),
      append_nil]
  rwa [Block.mk.injEq]

theorem part_copyIn_apart {start' size : Nat}
    (h : start' + size ≤ start ∨ start + src.length ≤ start') :
    (b.copyIn start src).part start' size = b.part start' size := by
  by_cases hle : start + src.length ≤ 16
  case neg => rw [copyIn, dif_neg hle]
  case pos =>
    have hlength := b.length_bytes
    refine ext_getElem? fun i => ?_
    rw [part, part, bytes_copyIn hle, getElem?_take, getElem?_take]
    split
    · rw [getElem?_drop, getElem?_drop]
      obtain h | h := h
      · exact BitBuffer.getElem?_memcpy_of_lt (by omega) (by omega)
      · exact BitBuffer.getElem?_memcpy_of_le (by omega) (by omega)
    · rfl

end Block

/-- `mf_classic_block_to_value`: whether the checks of a value block hold, and the value. -/
def blockToValue (b : Block) : Bool × Word :=
  (b.word 0 == b.word 8 && b.word 0 == ~~~ b.word 4 && b.byte 12 == ~~~ b.byte 13 &&
    b.byte 14 == ~~~ b.byte 15 && b.byte 12 == b.byte 14, b.word 0)

/-- A number as it lies in memory. -/
def littleEndian (w : Word) : List Byte := (Crypto1.numToBytes w).reverse

def valueToBlock (value : Word) (addr : Byte) : Block where
  bytes := littleEndian value ++ littleEndian (~~~ value) ++ littleEndian value ++
    [addr, ~~~ addr, addr, ~~~ addr]
  length_bytes := rfl

def getSectorByBlock (block : Byte) : Byte :=
  if block < 128 then (block ||| 0x03) / 4 else 32 + ((block ||| 0x0F) - 128) / 16

/-- `mf_classic_get_sector_trailer_num_by_sector`, for the sector of a block; the source crashes
for the sectors from 40 on, which no block is in. -/
def getSectorTrailerNumBySector (sector : Byte) : Byte :=
  if sector < 32 then sector * 4 + 3 else 128 + (sector - 32) * 16 + 15

def getSectorTrailerNumByBlock (block : Byte) : Byte :=
  if block < 128 then block ||| 0x03 else block ||| 0x0F

def isSectorTrailer (block : Byte) : Bool := block == getSectorTrailerNumByBlock block

/-- `MfClassicData`, with the UID of its ISO14443-3A part. -/
structure Data where
  uid : List Byte
  type : CardType
  block : Byte → Block

/-- What a card does not change. -/
def Data.identity (d : Data) : List Byte × CardType := (d.uid, d.type)

def Data.getCuid (d : Data) : Word :=
  Crypto1.bytesToNum ((if d.uid.length = 7 then d.uid.drop 3 else d.uid).take 4)

def Data.setBlock (d : Data) (num : Byte) (b : Block) : Data :=
  { d with block := Function.update d.block num b }

def Data.getSectorTrailerBySector (d : Data) (sector : Byte) : Block :=
  d.block (getSectorTrailerNumBySector sector)

inductive KeyType
  | a
  | b
  deriving DecidableEq

inductive Action
  | dataRead
  | dataWrite
  | dataInc
  | dataDec
  | keyARead
  | keyAWrite
  | keyBRead
  | keyBWrite
  | acRead
  | acWrite
  deriving DecidableEq

def shiftRight (x shift mask : Byte) : Byte := (x >>> shift) &&& mask

def shiftLeft (x shift mask : Byte) : Byte := (x <<< shift) &&& mask

def trailerCondition (bits : List Byte) : Byte :=
  shiftRight (bits.getD 1 0) 5 0x04 ||| shiftRight (bits.getD 2 0) 2 0x02 |||
    shiftRight (bits.getD 2 0) 7 0x01

/-- The access condition of a data block, for the three groups of blocks in a sector. -/
def dataCondition (bits : List Byte) (sectorBlock : Byte) : Option Byte :=
  match sectorBlock with
  | 0 => some (shiftRight (bits.getD 1 0) 2 0x04 ||| shiftLeft (bits.getD 2 0) 1 0x02 |||
      shiftRight (bits.getD 2 0) 4 0x01)
  | 1 => some (shiftRight (bits.getD 1 0) 3 0x04 ||| shiftRight (bits.getD 2 0) 0 0x02 |||
      shiftRight (bits.getD 2 0) 5 0x01)
  | 2 => some (shiftRight (bits.getD 1 0) 4 0x04 ||| shiftRight (bits.getD 2 0) 1 0x02 |||
      shiftRight (bits.getD 2 0) 6 0x01)
  | _ => none

def isAllowedAccessSectorTrailer (d : Data) (block : Byte) (key : KeyType) (action : Action) :
    Bool :=
  let ac := trailerCondition (d.getSectorTrailerBySector (getSectorByBlock block)).accessBits
  match action with
  | .keyARead => false
  | .keyAWrite | .keyBWrite =>
    (key == .a && (ac == 0x00 || ac == 0x01)) ||
      (key == .b && (ac == 0x00 || ac == 0x04 || ac == 0x03 || ac == 0x01))
  | .keyBRead =>
    (key == .a && (ac == 0x00 || ac == 0x02 || ac == 0x01)) ||
      (key == .b && (ac == 0x00 || ac == 0x02 || ac == 0x01))
  | .acRead => key == .a || key == .b
  | .acWrite =>
    (key == .a && ac == 0x01) || (key == .b && (ac == 0x01 || ac == 0x03 || ac == 0x05))
  | _ => false

def dataAccess (ac : Byte) (key : KeyType) : Action → Bool
  | .dataRead =>
    (key == .a && !(ac == 0x03 || ac == 0x05 || ac == 0x07)) || (key == .b && !(ac == 0x07))
  | .dataWrite =>
    (key == .a && ac == 0x00) ||
      (key == .b && (ac == 0x00 || ac == 0x04 || ac == 0x06 || ac == 0x03))
  | .dataInc => (key == .a && ac == 0x00) || (key == .b && (ac == 0x00 || ac == 0x06))
  | .dataDec =>
    (key == .a && (ac == 0x00 || ac == 0x06 || ac == 0x01)) ||
      (key == .b && (ac == 0x00 || ac == 0x06 || ac == 0x01))
  | _ => false

def isAllowedAccessDataBlock (trailer : Block) (block : Byte) (key : KeyType) (action : Action) :
    Bool :=
  if block = 0 ∧ action = .dataWrite then false
  else
    let sectorBlock := if block ≤ 128 then block &&& 0x03 else (block &&& 0x0F) / 5
    match dataCondition trailer.accessBits sectorBlock with
    | some ac => dataAccess ac key action
    | none => false

def isAllowedAccess (d : Data) (block : Byte) (key : KeyType) (action : Action) : Bool :=
  if isSectorTrailer block then isAllowedAccessSectorTrailer d block key action
  else isAllowedAccessDataBlock (d.getSectorTrailerBySector (getSectorByBlock block)) block key
    action

end NikitaFirmware.MfClassic
