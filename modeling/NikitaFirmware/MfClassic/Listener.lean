import NikitaFirmware.MfClassic.Card
import NikitaFirmware.Nfc.PollerBlocks

/-!
# The emulated card

`nfc/protocols/mf_classic/mf_classic_listener.c`. A handler has no result where a `furi_check` of
a buffer fails. Beside its command for the listener a handler tells what it has sent, and which
block it has sent, loaded a value from or written.
-/

namespace NikitaFirmware.MfClassic
open Nfc

inductive Command
  | processed
  | ack
  | nack
  | silent
  | sleep
  deriving DecidableEq

inductive State
  | idle
  | authComplete
  deriving DecidableEq

inductive CommState
  | plain
  | encrypted
  deriving DecidableEq

inductive ValueCommand
  | increment
  | decrement
  | restore
  | invalid

/-- `MfClassicAuthContext`, without what is only shown to the callback. -/
structure AuthContext where
  blockNum : Byte
  keyType : KeyType
  nt : List Byte
  nr : List Byte
  ar : List Byte

def AuthContext.empty : AuthContext := ⟨0, .a, [0, 0, 0, 0], [0, 0, 0, 0], [0, 0, 0, 0]⟩

structure Listener where
  state : State
  commState : CommState
  data : Data
  txPlain : BitBuffer
  txEncrypted : BitBuffer
  rxPlain : BitBuffer
  crypto : Crypto1
  authContext : AuthContext
  writeBlock : Byte
  transferValue : Word
  transferValid : Bool
  valueCmd : ValueCommand
  cmdInProgress : Bool
  currentCmdIdx : Nat
  currentCmdHandlerIdx : Nat
  totalBlockNum : Nat

/-- A transmission, what it says before it is encrypted, and the generator behind it. `source` is the
block that is sent. -/
structure Sent where
  plain : BitBuffer
  frame : BitBuffer
  source : Option Byte
  behind : Crypto1

/-- What a handler leaves behind. A block that a value is loaded from comes with the command, one
that is written with the access that this needs. -/
structure Handled where
  command : Command
  listener : Listener
  sent : List Sent := []
  loaded : Option (Byte × ValueCommand) := none
  written : Option (Byte × Action) := none

/-- Four bytes of `furi_hal_random_fill_buf`. -/
structure Nonce where
  bytes : List Byte
  length_bytes : bytes.length = 4

namespace Listener

def maxBuffSize : Nat := 64

/-- `mf_classic_listener_alloc`; what it does not set is zero. -/
def alloc (data : Data) : Listener where
  state := .idle
  commState := .plain
  data := data
  txPlain := BitBuffer.alloc maxBuffSize
  txEncrypted := BitBuffer.alloc maxBuffSize
  rxPlain := BitBuffer.alloc maxBuffSize
  crypto := Crypto1.reset
  authContext := AuthContext.empty
  writeBlock := 0
  transferValue := 0
  transferValid := false
  valueCmd := .increment
  cmdInProgress := false
  currentCmdIdx := 0
  currentCmdHandlerIdx := 0
  totalBlockNum := getTotalBlockNum data.type

def resetState (l : Listener) : Listener := { l with
  crypto := Crypto1.reset
  authContext := AuthContext.empty
  commState := .plain
  state := .idle
  cmdInProgress := false
  currentCmdHandlerIdx := 0
  writeBlock := 0
  transferValue := 0
  transferValid := false
  valueCmd := .invalid }

def nextHandler (l : Listener) : Listener := { l with
  cmdInProgress := true, currentCmdHandlerIdx := l.currentCmdHandlerIdx + 1 }

def inSector (l : Listener) (block : Byte) : Bool :=
  getSectorByBlock block == getSectorByBlock l.authContext.blockNum

def allows (l : Listener) (block : Byte) (action : Action) : Bool :=
  isAllowedAccess l.data block l.authContext.keyType action

def crcAppend (b : BitBuffer) : Option BitBuffer :=
  b.appendBytes (crcBytes (crcCalculate b.bytes))

/-- What is in `txPlain` goes out encrypted. -/
def sendEncrypted (l : Listener) (keystream : List Byte) (source : Option Byte) :
    Option (Listener × Sent) :=
  (l.crypto.encrypt keystream l.txPlain l.txEncrypted).map fun r =>
    ({ l with crypto := r.1, txEncrypted := r.2 }, ⟨l.txPlain, r.2, source, r.1⟩)

def haltHandler (l : Listener) (buff : BitBuffer) : Option Handled :=
  (buff.getByte 1).map fun lsb : Byte =>
    { command := if lsb = 0x00 then .sleep else .nack, listener := l }

def keyToNum (key : List Byte) : BitVec 48 :=
  key.foldl (fun num b => (num <<< 8) ||| b.toBitVec.setWidth 48) 0

/-- The key of the sector that the reader asks for. -/
def key (d : Data) (keyType : KeyType) (block : Byte) : BitVec 48 :=
  keyToNum <| match keyType with
    | .a => (d.getSectorTrailerBySector (getSectorByBlock block)).keyA
    | .b => (d.getSectorTrailerBySector (getSectorByBlock block)).keyB

/-- The nonce of the card goes out, plain or encrypted with itself fed in. -/
def sendNonce (l : Listener) (nt : Nonce) : Option (Listener × Sent) :=
  match l.commState with
  | .plain =>
    (l.txEncrypted.copyBytes nt.bytes).map fun tx =>
      let crypto := (l.crypto.word (Crypto1.bytesToNum nt.bytes ^^^ l.data.getCuid) false).2
      ({ l with crypto := crypto, txEncrypted := tx }, ⟨tx, tx, none, crypto⟩)
  | .encrypted =>
    (l.txPlain.copyBytes nt.bytes).bind fun tx =>
      { l with txPlain := tx }.sendEncrypted
        (Crypto1.numToBytes (Crypto1.bytesToNum nt.bytes ^^^ l.data.getCuid)) none

def authFirstPartHandler (l : Listener) (keyType : KeyType) (buff : BitBuffer) (nt : Nonce) :
    Option Handled := do
  let blockNum ← buff.getByte 1
  let l := { l with state := .idle }
  if l.totalBlockNum ≤ blockNum.toNat then return { command := .nack, listener := l }
  else
    let l := { l with
      authContext := { l.authContext with keyType := keyType, blockNum := blockNum, nt := nt.bytes }
      crypto := Crypto1.init (key l.data keyType blockNum) }
    let (l, sent) ← l.sendNonce nt
    return { command := .processed, listener := l.nextHandler, sent := [sent] }

/-- The answer of the reader is the one that its key gives. -/
def acceptsAnswer (c : Crypto1) (nt nr ar : List Byte) : Bool × Crypto1 :=
  let c := (c.word (Crypto1.bytesToNum nr) true).2
  let answer := c.word 0 false
  (Crypto1.bytesToNum ar ^^^ answer.1 == Crypto1.prngSuccessor (Crypto1.bytesToNum nt) 64, answer.2)

/-- The answer of the card completes the authentication. -/
def completeAuth (l : Listener) : Option Handled := do
  let answer := Crypto1.prngSuccessor (Crypto1.bytesToNum l.authContext.nt) 96
  let tx ← l.txPlain.copyBytes (Crypto1.numToBytes answer)
  let (l, sent) ← sendEncrypted { l with txPlain := tx } [] none
  return {
    command := .processed
    listener := { l with state := .authComplete, commState := .encrypted }
    sent := [sent] }

def authSecondPartHandler (l : Listener) (buff : BitBuffer) : Option Handled := do
  let l := { l with cmdInProgress := false }
  if buff.sizeBytes ≠ 8 then return { command := .sleep, listener := l }
  else
    let nr ← buff.writeBytesMid 0 4
    let ar ← buff.writeBytesMid 4 4
    let accepted := acceptsAnswer l.crypto l.authContext.nt nr ar
    let l := { l with
      authContext := { l.authContext with nr := nr, ar := ar }, crypto := accepted.2 }
    if accepted.1 then l.completeAuth else return { command := .sleep, listener := l }

/-- A field that may not be read is zero. -/
def mask (l : Listener) (block : Byte) (action : Action) (start size : Nat) (content : Block) :
    Block :=
  if l.allows block action then content else content.copyIn start (List.replicate size 0)

/-- A sector trailer with the fields that may be read. -/
def readable (l : Listener) (block : Byte) : Block :=
  let content := l.mask block .keyARead 0 6 (l.data.block block)
  let content := l.mask block .keyBRead 10 6 content
  l.mask block .acRead 6 4 content

/-- A block goes out with its checksum. -/
def sendBlock (l : Listener) (block : Byte) (content : Block) : Option Handled := do
  let tx ← l.txPlain.copyBytes content.bytes
  let tx ← crcAppend tx
  let (l, sent) ← { l with txPlain := tx }.sendEncrypted [] (some block)
  return { command := .processed, listener := l, sent := [sent] }

def readBlockHandler (l : Listener) (buff : BitBuffer) : Option Handled := do
  let block ← buff.getByte 1
  if l.state ≠ .authComplete ∨ l.inSector block = false then
    return { command := .nack, listener := l }
  else if isSectorTrailer block then l.sendBlock block (l.readable block)
  else if l.allows block .dataRead then l.sendBlock block (l.data.block block)
  else return { command := .nack, listener := l }

def writeBlockFirstPartHandler (l : Listener) (buff : BitBuffer) : Option Handled := do
  let block ← buff.getByte 1
  if l.state ≠ .authComplete ∨ l.totalBlockNum ≤ block.toNat ∨ block = 0 ∨
      l.inSector block = false then
    return { command := .nack, listener := l }
  else return { command := .ack, listener := { l with writeBlock := block }.nextHandler }

/-- The bytes of the frame that may be written, in the block. -/
def writeField (l : Listener) (block : Byte) (action : Action) (buff : BitBuffer)
    (start size : Nat) (content : Block) : Option Block :=
  if l.allows block action then (buff.writeBytesMid start size).map (content.copyIn start)
  else some content

/-- The block is replaced, and the card acknowledges. -/
def storeBlock (l : Listener) (block : Byte) (content : Block) (action : Action) : Handled where
  command := .ack
  listener := { l with data := l.data.setBlock block content }
  written := some (block, action)

def writeBlockSecondPartHandler (l : Listener) (buff : BitBuffer) : Option Handled := do
  let l := { l with cmdInProgress := false }
  let block := l.writeBlock
  let content := l.data.block block
  if buff.sizeBytes ≠ 16 then return { command := .nack, listener := l }
  else if isSectorTrailer block then
    if !l.allows block .keyAWrite && !l.allows block .keyBWrite && !l.allows block .acWrite then
      return { command := .nack, listener := l }
    else
      let content ← l.writeField block .keyAWrite buff 0 6 content
      let content ← l.writeField block .keyBWrite buff 10 6 content
      let content ← l.writeField block .acWrite buff 6 4 content
      return l.storeBlock block content .dataWrite
  else if l.allows block .dataWrite then
    let bytes ← buff.writeBytesMid 0 16
    return l.storeBlock block (content.copyIn 0 bytes) .dataWrite
  else return { command := .nack, listener := l }

def valueAction : Byte → Option (ValueCommand × Action)
  | 0xC0 => some (.decrement, .dataDec)
  | 0xC1 => some (.increment, .dataInc)
  | 0xC2 => some (.restore, .dataDec)
  | _ => none

def loadValue (l : Listener) (block : Byte) (cmd : ValueCommand) (action : Action) : Handled :=
  if l.allows block action then
    if (blockToValue (l.data.block block)).1 then {
      command := .ack
      listener := nextHandler { l with
        valueCmd := cmd
        transferValue := (blockToValue (l.data.block block)).2
        transferValid := true }
      loaded := some (block, cmd) }
    else {
      command := .nack
      listener := { l with
        valueCmd := cmd, transferValue := (blockToValue (l.data.block block)).2 } }
  else { command := .nack, listener := { l with valueCmd := cmd } }

def valueCmdHandler (l : Listener) (buff : BitBuffer) : Option Handled := do
  let block ← buff.getByte 1
  if l.state ≠ .authComplete ∨ l.totalBlockNum ≤ block.toNat ∨ l.inSector block = false then
    return { command := .nack, listener := l }
  else
    match valueAction (← buff.getByte 0) with
    | none => return { command := .nack, listener := l }
    | some (cmd, action) => return l.loadValue block cmd action

def operand (cmd : ValueCommand) (data : Word) : Word :=
  let data := if data.msb then -data else data
  match cmd with
  | .decrement => -data
  | .restore => 0
  | _ => data

def valueDataReceiveHandler (l : Listener) (buff : BitBuffer) : Option Handled := do
  if buff.sizeBytes ≠ 4 then return { command := .nack, listener := l }
  else
    let data ← buff.writeBytesMid 0 4
    let operand := operand l.valueCmd (Crypto1.bytesToNum data.reverse)
    return {
      command := .silent
      listener := { l with
        transferValue := l.transferValue + operand, transferValid := true }.nextHandler }

def valueTransferHandler (l : Listener) (buff : BitBuffer) : Option Handled := do
  let l := { l with cmdInProgress := false }
  if buff.sizeBytes ≠ 2 then return { command := .nack, listener := l }
  else
    let cmd ← buff.getByte 0
    let block ← buff.getByte 1
    if cmd = 0xB0 ∧ l.allows block .dataDec then
      let stored := l.storeBlock block (valueToBlock l.transferValue block) .dataDec
      return { stored with
        listener := { stored.listener with transferValue := 0, transferValid := false } }
    else return { command := .nack, listener := l }

inductive Handler
  | halt
  | authKeyA
  | authKeyB
  | authSecondPart
  | readBlock
  | writeBlockFirstPart
  | writeBlockSecondPart
  | valueCmd
  | valueDataReceive
  | valueTransfer
  deriving DecidableEq

def Handler.run (h : Handler) (l : Listener) (buff : BitBuffer) (nt : Nonce) : Option Handled :=
  match h with
  | .halt => l.haltHandler buff
  | .authKeyA => l.authFirstPartHandler .a buff nt
  | .authKeyB => l.authFirstPartHandler .b buff nt
  | .authSecondPart => l.authSecondPartHandler buff
  | .readBlock => l.readBlockHandler buff
  | .writeBlockFirstPart => l.writeBlockFirstPartHandler buff
  | .writeBlockSecondPart => l.writeBlockSecondPartHandler buff
  | .valueCmd => l.valueCmdHandler buff
  | .valueDataReceive => l.valueDataReceiveHandler buff
  | .valueTransfer => l.valueTransferHandler buff

/-- `MfClassicListenerCmd` -/
structure Cmd where
  cmdStartByte : Byte
  cmdLenBits : Nat
  handler : List Handler

def cmdHandlers : List Cmd :=
  [⟨0x50, 16, [.halt]⟩, ⟨0x50, 15, [.halt]⟩, ⟨0x60, 16, [.authKeyA, .authSecondPart]⟩,
    ⟨0x61, 16, [.authKeyB, .authSecondPart]⟩, ⟨0x30, 16, [.readBlock]⟩,
    ⟨0xA0, 16, [.writeBlockFirstPart, .writeBlockSecondPart]⟩,
    ⟨0xC0, 16, [.valueCmd, .valueDataReceive, .valueTransfer]⟩,
    ⟨0xC1, 16, [.valueCmd, .valueDataReceive, .valueTransfer]⟩,
    ⟨0xC2, 16, [.valueCmd, .valueDataReceive, .valueTransfer]⟩]

/-- The handler at an index of the table; without a result past its end. -/
def handlerAt (cmdIdx handlerIdx : Nat) : Option Handler :=
  (cmdHandlers[cmdIdx]?).bind fun cmd => cmd.handler[handlerIdx]?

/-- The first command that the frame can be. -/
def findCmd (buff : BitBuffer) : Option Nat :=
  cmdHandlers.findIdx? fun cmd =>
    buff.sizeBits == cmd.cmdLenBits && buff.data.head? == some cmd.cmdStartByte

/-- The frame goes to the handler of the command in progress, or starts a command. -/
def dispatch (l : Listener) (buff : BitBuffer) (nt : Nonce) : Option Handled :=
  if l.cmdInProgress then
    (handlerAt l.currentCmdIdx l.currentCmdHandlerIdx).bind fun h => h.run l buff nt
  else
    match findCmd buff with
    | some i =>
      (handlerAt i 0).bind fun h =>
        h.run { l with currentCmdIdx := i, currentCmdHandlerIdx := 0 } buff nt
    | none => some { command := .nack, listener := l }

def sendShortFrame (l : Listener) (data : Byte) : Option (Listener × Sent) := do
  let tx ← l.txPlain.setSize 4
  let tx ← tx.setByte 0 data
  match l.commState with
  | .encrypted => sendEncrypted { l with txPlain := tx } [] none
  | .plain => return ({ l with txPlain := tx }, ⟨tx, tx, none, l.crypto⟩)

/-- A frame with a correct checksum is cut down to what stands before it. -/
def trimChecked (rx : BitBuffer) : Option BitBuffer :=
  if crcCheck rx.bytes then crcTrim rx else some rx

/-- The frame as the handlers get it. -/
def receive (l : Listener) (buff : BitBuffer) : Option (Listener × BitBuffer) :=
  match l.commState, l.state with
  | .encrypted, .authComplete =>
    (l.crypto.decrypt buff l.rxPlain).bind fun r =>
      (trimChecked r.2).map fun rx => ({ l with crypto := r.1, rxPlain := rx }, rx)
  | _, _ => some (l, buff)

/-- The answer to a command that the handler has carried out, or has not. -/
def respond (h : Handled) : Option Handled :=
  match h.command with
  | .ack => (h.listener.sendShortFrame 0x0A).map fun r =>
      { h with listener := r.1, sent := h.sent ++ [r.2] }
  | .nack => (h.listener.sendShortFrame (if h.listener.transferValid then 0x00 else 0x04)).map
      fun r => { h with listener := r.1.resetState, sent := h.sent ++ [r.2] }
  | .sleep => some { h with listener := h.listener.resetState }
  | .processed | .silent => some h

/-- The events of the lower layer, a frame together with the nonce that may be drawn. -/
inductive Event
  | fieldOff
  | received (buff : BitBuffer) (nt : Nonce)
  | halted

def run (l : Listener) : Event → Option Handled
  | .fieldOff | .halted => some { command := .sleep, listener := l.resetState }
  | .received buff nt => do
    let (l, buff) ← l.receive buff
    respond (← l.dispatch buff nt)

end Listener

end NikitaFirmware.MfClassic
