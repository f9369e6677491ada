import Mathlib.Logic.Function.Iterate
import NikitaFirmware.Nfc.BitBuffer

/-!
# The emulated memory of ISO15693 cards

`nfc/protocols/iso15693_3`: the requests for the memory in `iso15693_3_listener_i.c`, without a
protocol extension. A handler has no result where a `furi_check` fails, where it divides by zero
and where it reads past the end of the array that a request has arrived in.
-/

namespace NikitaFirmware.Iso15693
open Nfc

/-- `Iso15693_3Data` as far as the memory is concerned. A card without blocks or with empty blocks
has empty arrays. -/
structure Card where
  blockCount : Nat
  blockSize : Nat
  blockData : List Byte
  blockSecurity : List Byte
  blockCount_lt : blockCount < 65536
  blockSize_lt : blockSize < 256
  length_blockData : blockData.length = blockCount * blockSize
  length_blockSecurity : blockSecurity.length = if blockSize = 0 then 0 else blockCount

namespace Card

def isBlockLocked (c : Card) (i : Nat) : Option Bool :=
  if c.blockCount ≤ i % 256 then none
  else if c.blockSecurity.length = 0 then some false
  else (c.blockSecurity[i % 256]?).map (· != 0)

def appendBlock (c : Card) (i : Nat) (tx : BitBuffer) : Option BitBuffer :=
  if c.blockData.length ≤ i % 256 * c.blockSize then none
  else tx.appendBytes ((c.blockData.drop (i % 256 * c.blockSize)).take c.blockSize)

def appendBlockSecurity (c : Card) (i : Nat) (tx : BitBuffer) : Option BitBuffer :=
  (c.blockSecurity[i % 256]?).bind tx.appendByte

def setBlockLocked (c : Card) (i : Nat) : Option Card :=
  if c.blockSecurity.length ≤ i % 256 then none
  else some { c with
    blockSecurity := c.blockSecurity.set (i % 256) 1
    length_blockSecurity := List.length_set.trans c.length_blockSecurity }

def setBlockData (c : Card) (i : Nat) (bytes : List Byte) : Option Card :=
  let offset := i % 256 * c.blockSize
  if h : offset < c.blockData.length ∧ offset + bytes.length ≤ c.blockData.length then some { c with
    blockData := memcpy c.blockData offset bytes
    length_blockData := (BitBuffer.length_memcpy h.2).trans c.length_blockData }
  else none

end Card

/-- `Iso15693_3Error`, as far as the handlers of the memory use it. -/
inductive Error
  | format
  | ignore
  | internal
  deriving DecidableEq

inductive Command
  | readBlock
  | writeBlock
  | lockBlock
  | readMultiBlocks
  | writeMultiBlocks
  | getBlocksSecurity

/-- A request behind its header: `size` bytes, and what follows them in the array of the receiving
buffer. -/
structure Request where
  command : Command
  flags : Byte
  data : List Byte
  size : Nat
  size_le : size ≤ data.length

namespace Request

def byte (r : Request) (i : Nat) : Nat := (r.data.getD i 0).toNat

def option (r : Request) : Bool := r.flags &&& 0x40 != 0

theorem length_le_padded (bytes : List Byte) :
    bytes.length ≤ (bytes ++ List.replicate 8 0).length :=
  (List.prefix_append _ _).length_le

end Request

/-- `Iso15693_3Listener`. The buffer for the answer is empty when a request arrives. -/
structure Listener where
  card : Card
  waitForEof : Bool

structure Handled where
  error : Option Error
  listener : Listener
  tx : BitBuffer

namespace Listener

def bufferSize : Nat := 1027

/-- A difference of `uint32_t`. -/
def sub32 (a b : Nat) : Nat := (a + 4294967296 - b) % 4294967296

def fail (l : Listener) (e : Error) (tx : BitBuffer) : Handled := ⟨some e, l, tx⟩

/-- The security byte goes before a block if it is asked for. -/
def appendSecurityIf (c : Card) (option : Bool) (i : Nat) (tx : BitBuffer) : Option BitBuffer :=
  if option then c.appendBlockSecurity i tx else some tx

def readBlockHandler (l : Listener) (r : Request) (tx : BitBuffer) : Option Handled :=
  if r.size ≠ 1 then some (l.fail .format tx)
  else if l.card.blockCount ≤ r.byte 0 then some (l.fail .internal tx)
  else do
    let tx ← appendSecurityIf l.card r.option (r.byte 0) tx
    let tx ← l.card.appendBlock (r.byte 0) tx
    return ⟨none, l, tx⟩

def writeBlockHandler (l : Listener) (r : Request) (tx : BitBuffer) : Option Handled :=
  let l := { l with waitForEof := r.option }
  if r.size ≤ 1 then some (l.fail .format tx)
  else if l.card.blockCount ≤ r.byte 0 then some (l.fail .internal tx)
  else if r.size - 1 ≠ l.card.blockSize then some (l.fail .internal tx)
  else do
    if ← l.card.isBlockLocked (r.byte 0) then return l.fail .internal tx
    else
      let c ← l.card.setBlockData (r.byte 0) ((r.data.drop 1).take (r.size - 1))
      return ⟨none, { l with card := c }, tx⟩

def lockBlockHandler (l : Listener) (r : Request) (tx : BitBuffer) : Option Handled :=
  let l := { l with waitForEof := r.option }
  if r.size ≠ 1 then some (l.fail .format tx)
  else if l.card.blockCount ≤ r.byte 0 then some (l.fail .internal tx)
  else do
    if ← l.card.isBlockLocked (r.byte 0) then return l.fail .internal tx
    else
      let c ← l.card.setBlockLocked (r.byte 0)
      return ⟨none, { l with card := c }, tx⟩

def readEnd (c : Card) (r : Request) : Nat := min (r.byte 0 + r.byte 1) (sub32 c.blockCount 1)

def readCount (c : Card) (r : Request) : Nat := sub32 (readEnd c r + 1) (r.byte 0)

/-- The size of a block in an answer is a byte. -/
def bytesPerBlock (c : Card) (r : Request) : Nat :=
  ((if r.option then 1 else 0) + c.blockSize) % 256

/-- The loop over the blocks that are read. -/
def appendBlocks (c : Card) (option : Bool) : List Nat → BitBuffer → Option BitBuffer
  | [], tx => some tx
  | i :: is, tx =>
    (appendSecurityIf c option i tx).bind fun tx =>
      (c.appendBlock i tx).bind (appendBlocks c option is)

def blockRange (first last : Nat) : List Nat := List.range' first (last + 1 - first)

def readMultiBlocksHandler (l : Listener) (r : Request) (tx : BitBuffer) : Option Handled :=
  if r.size ≠ 2 then some (l.fail .format tx)
  else if bytesPerBlock l.card r = 0 then none
  else if (tx.capacityBytes - 1 - 2) / bytesPerBlock l.card r < readCount l.card r then
    some (l.fail .ignore tx)
  else (appendBlocks l.card r.option (blockRange (r.byte 0) (readEnd l.card r)) tx).map
    fun tx => ⟨none, l, tx⟩

/-- The loop that looks for a locked block. -/
def anyLocked (c : Card) : List Nat → Option Bool
  | [] => some false
  | i :: is => (c.isBlockLocked i).bind fun locked => if locked then some true else anyLocked c is

/-- The bytes of a request from an offset on; there are none past the end of the array. -/
def payload (r : Request) (offset size : Nat) : Option (List Byte) :=
  if r.data.length < offset + size then none else some ((r.data.drop offset).take size)

def setBlocks (r : Request) : List Nat → Card → Option Card
  | [], c => some c
  | i :: is, c =>
    (payload r (2 + c.blockSize * i) c.blockSize).bind fun bytes =>
      (c.setBlockData i bytes).bind (setBlocks r is)

def writeMultiBlocksHandler (l : Listener) (r : Request) (tx : BitBuffer) : Option Handled :=
  let l := { l with waitForEof := r.option }
  if r.size ≤ 2 then some (l.fail .format tx)
  else if sub32 l.card.blockCount (r.byte 0) < r.byte 1 + 1 then some (l.fail .internal tx)
  else if (r.size - 2) / (r.byte 1 + 1) ≠ l.card.blockSize then some (l.fail .internal tx)
  else do
    if ← anyLocked l.card (blockRange (r.byte 0) (r.byte 0 + r.byte 1)) then
      return l.fail .internal tx
    else
      let c ← setBlocks r (blockRange (r.byte 0) (r.byte 0 + r.byte 1)) l.card
      return ⟨none, { l with card := c }, tx⟩

/-- The loop over the blocks whose security is asked for. -/
def appendLocks (c : Card) : List Nat → BitBuffer → Option BitBuffer
  | [], tx => some tx
  | i :: is, tx =>
    (c.isBlockLocked i).bind fun locked =>
      (tx.appendByte (if locked then 1 else 0)).bind (appendLocks c is)

def getMultiBlocksSecurityHandler (l : Listener) (r : Request) (tx : BitBuffer) : Option Handled :=
  if r.size < 2 then some (l.fail .format tx)
  else if l.card.blockCount ≤ r.byte 0 + r.byte 1 then some (l.fail .internal tx)
  else (appendLocks l.card (blockRange (r.byte 0) (r.byte 0 + r.byte 1)) tx).map
    fun tx => ⟨none, l, tx⟩

def handler (l : Listener) (r : Request) (tx : BitBuffer) : Option Handled :=
  match r.command with
  | .readBlock => l.readBlockHandler r tx
  | .writeBlock => l.writeBlockHandler r tx
  | .lockBlock => l.lockBlockHandler r tx
  | .readMultiBlocks => l.readMultiBlocksHandler r tx
  | .writeMultiBlocks => l.writeMultiBlocksHandler r tx
  | .getBlocksSecurity => l.getMultiBlocksSecurityHandler r tx

def crcBit (crc : UInt16) : UInt16 := if crc &&& 1 != 0 then (crc >>> 1) ^^^ 0x8408 else crc >>> 1

def crcCalculate (data : List Byte) : UInt16 :=
  ~~~ data.foldl (fun crc b => crcBit^[8] (crc ^^^ b.toUInt16)) 0xFFFF

def crcAppend (b : BitBuffer) : Option BitBuffer :=
  b.appendBytes [(crcCalculate b.bytes).toUInt8, (crcCalculate b.bytes >>> 8).toUInt8]

/-- What becomes of a request: the answer without its checksum, if there is one, and the frame that
is sent at once. -/
structure Outcome where
  listener : Listener
  answer : Option (List Byte)
  sent : Option BitBuffer

/-- An answer is sent, unless the reader is to ask for it by an end of frame. -/
def reply (l : Listener) (tx : BitBuffer) : Option Outcome :=
  if l.waitForEof then some ⟨l, some tx.bytes, none⟩
  else (crcAppend tx).map fun frame => ⟨l, some tx.bytes, some frame⟩

def finish (h : Handled) : Option Outcome :=
  match h.error with
  | some .format | some .ignore => some ⟨h.listener, none, none⟩
  | some .internal =>
    (h.tx.reset.appendByte 0x01).bind fun tx => (tx.appendByte 0x0F).bind h.listener.reply
  | none => h.listener.reply h.tx

def handleRequest (l : Listener) (r : Request) : Option Outcome :=
  ((BitBuffer.alloc bufferSize).appendByte 0x00).bind fun tx => (l.handler r tx).bind finish

end Listener

end NikitaFirmware.Iso15693
