import Mathlib.Data.List.DropRight
import NikitaFirmware.MfClassic.Card
import NikitaFirmware.Toolbox.FlipperEntries

/-!
# Files of MIFARE Classic cards

`mf_classic_save` and `mf_classic_load` of `mf_classic.c` with the ISO14443-3A part of a card. A
card may be known in part: there is a mask for the blocks that have been read and one for either key of
the sectors. A card is loaded into data that has its UID already; where loading fails the data is
given up, and there is no result either where a character behind the end of a string is read.
-/

namespace NikitaFirmware.MfClassic
open Nfc Foundations Toolbox.FlipperStream

/-- `MfClassicData`; the words of `block_read_mask` are one number. -/
structure Dump extends Data where
  atqa : Byte × Byte
  sak : Byte
  blockReadMask : BitVec 256
  keyMask : KeyType → BitVec 64

def sectorsTotal : CardType → Nat
  | .mini => 5
  | .k1 => 16
  | .k4 => 40
  | .k2 => 32

/-- The blocks of a card are numbered with bytes. -/
def Dump.isBlockRead (d : Dump) (num : Byte) : Bool := d.blockReadMask.getLsbD num.toNat

def Dump.isKeyFound (d : Dump) (sector : Byte) (type : KeyType) : Bool :=
  (d.keyMask type).getLsbD sector.toNat

def bytesToNumBe (src : List Byte) : Nat := Digits.value 256 (src.map UInt8.toNat)

def numToBytesBe (src len : Nat) : List Byte := (Digits.digits 256 len src).map UInt8.ofNat

def Dump.setBlockRead (d : Dump) (num : Byte) (data : List Byte) : Dump :=
  { d with
    block := Function.update d.block num
      (if isSectorTrailer num then (d.block num).copyIn 6 ((data.drop 6).take 4)
        else (d.block num).copyIn 0 data)
    blockReadMask := d.blockReadMask ||| 1#256 <<< num.toNat }

/-- The place of a key in a sector trailer. -/
def keyStart : KeyType → Nat
  | .a => 0
  | .b => 10

def Dump.setKeyFound (d : Dump) (sector : Byte) (type : KeyType) (key : Nat) : Dump :=
  let trailer := getSectorTrailerNumBySector sector
  { d with
    block := Function.update d.block trailer
      ((d.block trailer).copyIn (keyStart type) (numToBytesBe key 6))
    keyMask := Function.update d.keyMask type (d.keyMask type ||| 1#64 <<< sector.toNat) }

def typeName : CardType → List Char
  | .mini => "MINI".toList
  | .k1 => "1K".toList
  | .k4 => "4K".toList
  | .k2 => "2K".toList

def types : List CardType := [.mini, .k1, .k4, .k2]

/-- `furi_string_trim` -/
def isTrimmed (c : Char) : Bool := c = ' ' || c = '\n' || c = '\r' || c = '\t'

def trim (str : List Char) : List Char := (str.rdropWhile isTrimmed).dropWhile isTrimmed

/-- A byte as `mf_classic_set_block_str` writes it. -/
def cellText : Option Byte → List Char
  | some byte => printHex 2 byte.toNat ++ [' ']
  | none => "?? ".toList

def cellsOf (known : Bool) (bytes : List Byte) : List (Option Byte) :=
  bytes.map fun byte => if known then some byte else none

def Dump.cells (d : Dump) (num : Byte) : List (Option Byte) :=
  if isSectorTrailer num then
    let sector := getSectorByBlock num
    let trailer := d.getSectorTrailerBySector sector
    cellsOf (d.isKeyFound sector .a) trailer.keyA ++
      cellsOf (d.isBlockRead num) trailer.accessBits ++
        cellsOf (d.isKeyFound sector .b) trailer.keyB
  else cellsOf (d.isBlockRead num) (d.block num).bytes

def Dump.blockStr (d : Dump) (num : Byte) : List Char := trim ((d.cells num).flatMap cellText)

def atqaKey : List Char := "ATQA".toList
def sakKey : List Char := "SAK".toList
def typeKey : List Char := "Mifare Classic type".toList
def formatVersionKey : List Char := "Data format version".toList

def blockKey (i : Nat) : List Char := "Block ".toList ++ Nat.toDigits 10 i

def dataFormatVersion : UInt32 := 2

/-- `iso14443_3a_save`: the bytes of the ATQA are exchanged. -/
def Dump.saveBase (d : Dump) : List Entry :=
  [comment "ISO14443-3A specific data", .pair atqaKey (hexData [d.atqa.2, d.atqa.1]),
    .pair sakKey (hexData [d.sak])]

def Dump.save (d : Dump) : List Entry :=
  d.saveBase ++ [comment "Mifare Classic specific data", .pair typeKey (.str (typeName d.type)),
      .pair formatVersionKey (uint32Data dataFormatVersion),
      comment "Mifare Classic blocks, '??' means unknown data"] ++
    (List.range (getTotalBlockNum d.type)).map fun i =>
      .pair (blockKey i) (.str (d.blockStr (UInt8.ofNat i)))

/-- The loop of `mf_classic_parse_block`, from a byte on: a byte takes three characters, the last of
which is not read. -/
def parseCells : Nat → List Char → Option (List (Option Byte))
  | 0, _ => some []
  | n + 1, hi :: low :: str =>
    (parseCells n (str.drop 1)).map ((hexCharToUint8 hi low).map UInt8.ofNat :: ·)
  | _ + 1, _ => none

/-- What `mf_classic_parse_block` does with the bytes that it has found. -/
def Dump.takeCells (d : Dump) (num : Byte) (cells : List (Option Byte)) : Dump :=
  let bytes : List Byte := cells.map fun cell => cell.getD 0
  if cells.all Option.isNone then d
  else if isSectorTrailer num then
    let sector := getSectorByBlock num
    let d : Dump := if (cells.take 6).all Option.isSome then
      d.setKeyFound sector .a (bytesToNumBe (bytes.take 6)) else d
    let d : Dump := if ((cells.drop 6).take 4).all Option.isSome then
      d.setBlockRead num bytes else d
    if (cells.drop 10).all Option.isSome then
      d.setKeyFound sector .b (bytesToNumBe (bytes.drop 10)) else d
  else if cells.all Option.isSome then d.setBlockRead num bytes
  else d

def Dump.parseBlock (d : Dump) (str : List Char) (num : Byte) : Option Dump :=
  (parseCells 16 (trim (trim str))).map (d.takeCells num)

def Dump.loadBlocks : Dump → List Nat → Cursor Char → Option (Dump × Cursor Char)
  | d, [], ff => some (d, ff)
  | d, i :: is, ff =>
    (succeeded (readString ff (blockKey i) false)).bind fun r =>
      (d.parseBlock r.1 (UInt8.ofNat i)).bind fun d => d.loadBlocks is r.2

def lsbAtqaFormatVersion : Nat := 2

def Dump.loadBase (d : Dump) (ff : Cursor Char) (version : Nat) : Option (Dump × Cursor Char) :=
  (readHex ff atqaKey 2).bind fun atqa =>
    (readHex atqa.2 sakKey 1).map fun sak =>
      let read : Byte × Byte := (atqa.1.getD 0 0, atqa.1.getD 1 0)
      ({ d with
        atqa := if lsbAtqaFormatVersion < version then read.swap else read
        sak := sak.1.headD 0 }, sak.2)

/-- The type whose name is read. -/
def parseType (str : List Char) : Option CardType :=
  types.foldl (fun found type => if sameKey str (typeName type) then some type else found) none

/-- Whether the file has an old format: one without a number is read from its beginning again. -/
def readFormatVersion (ff : Cursor Char) : Bool × Cursor Char :=
  match readElements scanUint32 ff formatVersionKey 1 false with
  | (none, ff) => (true, (ff.seek 0).2)
  | (some version, ff) => (decide (version.headD 0 < dataFormatVersion), ff)

/-- Nothing is known of a card in an old format. -/
def Dump.forget (d : Dump) : Dump := { d with blockReadMask := 0#256, keyMask := fun _ => 0#64 }

def Dump.load (d : Dump) (ff : Cursor Char) (version : Nat) : Option (Dump × Cursor Char) :=
  (d.loadBase ff version).bind fun base =>
    (succeeded (readString base.2 typeKey false)).bind fun str =>
      (parseType str.1).bind fun type =>
        let format := readFormatVersion str.2
        let typed : Dump := { base.1 with type := type }
        (typed.loadBlocks (List.range (getTotalBlockNum type)) format.2).map fun r =>
          (if format.1 then r.1.forget else r.1, r.2)

def Dump.alloc : Dump where
  uid := []
  type := .mini
  block := fun _ => ⟨List.replicate 16 0, Block.length_zeros⟩
  atqa := (0, 0)
  sak := 0
  blockReadMask := 0#256
  keyMask := fun _ => 0#64

/-- `mf_classic_set_uid`: the UID stands at the beginning of the card, four bytes with their sum. -/
def Dump.setUid (d : Dump) (uid : List Byte) : Option Dump :=
  if uid.length = 4 ∨ uid.length = 7 ∨ uid.length = 10 then
    let block : Block := (d.block 0).copyIn 0 uid
    some { d with
      uid := uid
      block := Function.update d.block 0
        (if uid.length = 4 then block.copyIn 4 [uid.foldl (· ^^^ ·) 0] else block) }
  else none

end NikitaFirmware.MfClassic
