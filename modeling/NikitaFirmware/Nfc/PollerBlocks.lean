import NikitaFirmware.Nfc.BitBuffer

/-!
# The block layer of ISO14443-4

`nfc/helpers/iso14443_4_layer.c`: the poller's side encodes commands and decodes responses, the
listener's side the other way round. A function without a result ran into a failing `furi_check`
of a buffer.
-/

namespace NikitaFirmware.Nfc

def cidNotSupported : Byte := 0xFF

def nadNotSupported : Byte := 0xFF

def nadNotSet : Byte := 0xFE

def bitsActive (pcb mask : Byte) : Bool := pcb &&& mask == mask

def isIBlock (pcb : Byte) : Bool := bitsActive pcb 0x02 && pcb &&& 0xE0 == 0

def isRBlock (pcb : Byte) : Bool := bitsActive pcb 0xA0

def isSBlock (pcb : Byte) : Bool := bitsActive pcb 0xC0

def isChainActive (pcb : Byte) : Bool := bitsActive pcb 0x10

def isNackActive (pcb : Byte) : Bool := bitsActive pcb 0x10

def isPpsStart (pps : Byte) : Bool := pps &&& 0xF0 == 0xD0

structure Layer where
  pcb : Byte
  pcbPrev : Byte
  cid : Byte
  nad : Byte
  canPps : Bool

namespace Layer

def updatePcb (l : Layer) (toggleNum : Bool) : Layer :=
  { l with pcbPrev := l.pcb, pcb := if toggleNum then l.pcb ^^^ 0x01 else l.pcb }

def reset : Layer where
  pcb := 0x02
  pcbPrev := 0
  cid := cidNotSupported
  nad := nadNotSupported
  canPps := true

def setIBlock (l : Layer) (chaining cidPresent : Bool) : Layer :=
  { l with pcb := (if chaining then 0x10 else 0) ||| (if cidPresent then 0x08 else 0) |||
      (l.pcb &&& 0x03) }

def setCid (l : Layer) (cid : Byte) : Layer := { l with cid := cid }

def setNadSupported (l : Layer) (nad : Bool) : Layer :=
  { l with nad := if nad then 0 else nadNotSupported }

def encodeCommand (l : Layer) (input block : BitBuffer) : Option (Layer × BitBuffer) := do
  let block ← block.appendByte l.pcb
  let block ← block.append input
  return (l.updatePcb true, block)

/-- An R-block that is not a NACK, the answer to R-blocks and to a chained block. -/
def isAck (pcb : Byte) : Bool := isRBlock pcb && !isNackActive pcb

/-- What `iso14443_4_layer_decode_response` takes over from a block after its first byte. -/
def copyResponse (output block : BitBuffer) : Option BitBuffer :=
  if 1 < block.sizeBytes then output.copyRight block 1 else some output

def decodeResponse (l : Layer) (output block : BitBuffer) : Option (Bool × Layer × BitBuffer) :=
  if isRBlock l.pcbPrev then
    some (isAck (block.data.headD 0), { l with pcb := l.pcb &&& 0x03 }.updatePcb true, output)
  else if isChainActive l.pcbPrev then
    some (isAck (block.data.headD 0), { l with pcb := l.pcb &&& 0xEF }, output)
  else if isSBlock l.pcbPrev then
    (copyResponse output block).map fun output => (block.startsWithByte l.pcbPrev, l, output)
  else if block.startsWithByte l.pcbPrev then
    (copyResponse output block).map fun output => (true, l, output)
  else some (false, l, output)

/-- `Iso14443_4LayerResult`, in the combinations that occur. -/
inductive Result
  | skip
  | data
  | send
  | sendHalt
  deriving DecidableEq

/-- The request for a protocol and parameter selection. -/
def decodePps (l : Layer) (input block : BitBuffer) (ppss : Byte) :
    Option (Result × Layer × BitBuffer) :=
  if l.canPps then
    if l.cid ≠ cidNotSupported ∧ ppss &&& 0x0F ≠ l.cid then some (.skip, l, block)
    else do
      let pps0 ← input.getByte 1
      if pps0 &&& 0x10 ≠ 0 then
        let _ ← input.getByte 2
      let block ← block.reset.appendByte ppss
      return (.send, { l with canPps := false }, block)
  else some (.skip, l, block)

/-- The length of the prologue up to the CID; a block for another card has none. -/
def decodeCid (l : Layer) (input : BitBuffer) (present : Bool) : Option (Option Nat) :=
  if present then
    (input.getByte 1).map fun cid =>
      if l.cid = cidNotSupported ∨ cid &&& 0x0F ≠ l.cid then none else some 2
  else if l.cid ≠ cidNotSupported ∧ l.cid ≠ 0 then some none
  else some (some 1)

/-- The information field of an I-block behind a prologue of this length. -/
def decodeInf (l : Layer) (input block : BitBuffer) (prologueLen : Nat) :
    Option (Result × Layer × BitBuffer) :=
  if input.sizeBytes ≤ prologueLen then some (.skip, l, block)
  else (block.copyRight input prologueLen).map fun block => (.data, l.updatePcb false, block)

def decodeIBlock (l : Layer) (input block : BitBuffer) : Option (Result × Layer × BitBuffer) := do
  match ← l.decodeCid input (l.pcb &&& 0x08 != 0) with
  | none => return (.skip, l, block)
  | some prologueLen =>
    if l.pcb &&& 0x04 != 0 then
      if l.nad = nadNotSupported then return (.skip, l, block)
      else
        let nad ← input.getByte prologueLen
        { l with nad := nad }.decodeInf input block (prologueLen + 1)
    else l.decodeInf input block prologueLen

def decodeSBlock (l : Layer) (input block : BitBuffer) : Option (Result × Layer × BitBuffer) := do
  match ← l.decodeCid input (l.pcb &&& 0x08 != 0) with
  | none => return (.skip, l, block)
  | some _ =>
    if l.pcb &&& 0x30 = 0 then return (.sendHalt, l, ← block.copy input)
    else return (.skip, l, block)

def decodeRBlock (l : Layer) (block : BitBuffer) : Option (Result × Layer × BitBuffer) := do
  let l := l.updatePcb true
  let l := { l with pcb := l.pcb ||| 0x10 }
  let block ← block.reset.appendByte l.pcb
  return (.send, l.updatePcb false, block)

def decodeCommand (l : Layer) (input block : BitBuffer) : Option (Result × Layer × BitBuffer) := do
  let pcb ← input.getByte 0
  if isPpsStart pcb then l.decodePps input block pcb
  else
    let l := { l with canPps := false, pcb := pcb }
    if isIBlock pcb then l.decodeIBlock input block
    else if isSBlock pcb then l.decodeSBlock input block
    else if isRBlock pcb then l.decodeRBlock block
    else return (.skip, l, block)

/-- The CID of a response, where the command had one. -/
def encodeCid (l : Layer) (block : BitBuffer) : Option BitBuffer :=
  if l.pcbPrev &&& 0x08 != 0 then block.appendByte l.cid else some block

/-- The NAD of a response, once for each one received. -/
def encodeNad (l : Layer) (block : BitBuffer) : Option (Layer × BitBuffer) :=
  if l.pcbPrev &&& 0x04 != 0 && l.nad != nadNotSet then
    (block.appendByte l.nad).map fun block => ({ l with nad := nadNotSet }, block)
  else some ({ l with pcb := l.pcb &&& 0xFB }, block)

def encodeResponse (l : Layer) (input block : BitBuffer) : Option (Bool × Layer × BitBuffer) :=
  if isIBlock l.pcbPrev then do
    let block ← block.appendByte 0x00
    let block ← l.encodeCid block
    let (l, block) ← l.encodeNad block
    let l := { l with pcb := l.pcb &&& 0xEF }
    let block ← block.setByte 0 l.pcb
    let block ← block.append input
    return (true, l.updatePcb false, block)
  else some (false, l, block)

end Layer

/-!
## Blocks sent by a poller

The poller of ISO14443-4A sends a command in a block and waits for the block of the response,
answering the card's requests for more time. What the card does is a list of receptions, one for
each frame that the poller sends; after the last one the card stays silent.
-/

open BitBuffer

/-- A step of the loop in `iso14443_crc_calculate`. -/
def crcByte (crc : UInt16) (byte : Byte) : UInt16 :=
  let byte := byte ^^^ crc.toUInt8
  let byte := byte ^^^ (byte <<< 4)
  (crc >>> 8) ^^^ (byte.toUInt16 <<< 8) ^^^ (byte.toUInt16 <<< 3) ^^^ (byte.toUInt16 >>> 4)

def crcCalculate (data : List Byte) : UInt16 := data.foldl crcByte 0x6363

/-- The two bytes of a checksum as they are sent. -/
def crcBytes (crc : UInt16) : List Byte := [crc.toUInt8, (crc >>> 8).toUInt8]

def crcCheck (data : List Byte) : Bool :=
  decide (2 < data.length) &&
    data.drop (data.length - 2) == crcBytes (crcCalculate (data.take (data.length - 2)))

def crcTrim (b : BitBuffer) : Option BitBuffer :=
  if b.sizeBytes ≤ 2 then none else b.setSizeBytes (b.sizeBytes - 2)

/-- `Iso14443_3aError`, without `None`. -/
inductive Error3a
  | notPresent
  | colResFailed
  | bufferOverflow
  | communication
  | fieldOff
  | wrongCrc
  | timeout
  deriving DecidableEq

/-- `Iso14443_4aError`, without `None`. -/
inductive Error4a
  | notPresent
  | protocol
  | timeout
  | sendExtra
  deriving DecidableEq

def processError : Error3a → Error4a
  | .notPresent => .notPresent
  | .colResFailed | .communication | .wrongCrc => .protocol
  | .timeout => .timeout
  | .bufferOverflow | .fieldOff => .protocol

/-- What a transmission of the poller is answered with: an error of the transceiver, or a frame,
counted in the bytes that it takes up. -/
inductive Reception
  | error (e : Error3a)
  | frame (bytes : List Byte)

def pollerMaxBufferSize : Nat := 512

/-- `iso14443_3a_poller_standard_frame_exchange`. The checksum of the transmitted frame has to
fit the buffer it is appended in. -/
def standardFrameExchange (tx rx : BitBuffer) : Reception → Option (Option Error3a × BitBuffer)
  | r => if pollerMaxBufferSize < tx.sizeBytes + 2 then none
    else match r with
      | .error e => some (some e, rx)
      | .frame bytes =>
        if rx.capacityBytes < bytes.length then some (some .bufferOverflow, rx)
        else do
          let rx ← rx.copy (ofBytes bytes)
          if crcCheck bytes then return (none, ← crcTrim rx) else return (some .wrongCrc, rx)

/-- `Iso14443_4aPoller` as far as blocks are concerned. -/
structure Poller where
  layer : Layer
  tx : BitBuffer
  rx : BitBuffer

/-- What has become of the poller, its error and the buffer for the response. -/
structure Sent where
  error : Option Error4a
  poller : Poller
  rx : BitBuffer

def swtx : Byte := 0xF2

/-- The rest of `iso14443_4a_poller_send_block` once a block has been transmitted. -/
def receiveBlock (p : Poller) (rx : BitBuffer) : List Reception → Option Sent
  | [] => do
    let (_, _) ← standardFrameExchange p.tx p.rx (.error .timeout)
    return ⟨some .timeout, p, rx⟩
  | r :: answers => do
    let (error, received) ← standardFrameExchange p.tx p.rx r
    match error with
    | some e => return ⟨some (processError e), { p with rx := received }, rx⟩
    | none =>
      if received.startsWithByte swtx then
        let inf ← received.getByte 1
        if 0x3B < inf &&& 0x3F then return ⟨some .protocol, { p with rx := received }, rx⟩
        else
          let tx ← p.tx.reset.copyLeft received 1
          let tx ← tx.appendByte (inf &&& 0x3F)
          receiveBlock { p with tx := tx, rx := received } rx answers
      else
        let (ret, layer, rx) ← p.layer.decodeResponse rx received
        return ⟨if ret then none else some .protocol, { p with layer := layer, rx := received }, rx⟩

def sendBlock (p : Poller) (txBuffer rxBuffer : BitBuffer) (answers : List Reception) :
    Option Sent := do
  let (layer, tx) ← p.layer.encodeCommand txBuffer p.tx.reset
  receiveBlock { p with layer := layer, tx := tx } rxBuffer answers

def decodeResponsePwtExt (l : Layer) (output block : BitBuffer) :
    Option (Option Error4a × BitBuffer) := do
  let pcb ← block.getByte 0
  let output := output.reset
  if pcb &&& 0xC0 = 0x00 then
    if pcb = l.pcbPrev then return (none, ← output.copyRight block 1)
    else return (some .sendExtra, output)
  else if pcb &&& 0xC0 = 0xC0 ∧ pcb &&& 0x30 = 0x30 then
    let inf ← block.getByte 1
    let output ← output.appendByte swtx
    let output ← output.appendByte (inf &&& 0x3F)
    return (some .sendExtra, output)
  else return (some .protocol, output)

def sendBlockMaxAttempts : Nat := 20

def pwtExtLoop (p : Poller) (rx : BitBuffer) : Nat → List Reception → Option Sent
  | _, [] => do
    let (_, _) ← standardFrameExchange p.tx p.rx.reset (.error .timeout)
    return ⟨some .timeout, { p with rx := p.rx.reset }, rx⟩
  | attemptsLeft, r :: answers => do
    let (error, received) ← standardFrameExchange p.tx p.rx.reset r
    match error with
    | some e => return ⟨some (processError e), { p with rx := received }, rx⟩
    | none =>
      let (error, rx) ← decodeResponsePwtExt p.layer rx received
      if error = some .sendExtra then
        match attemptsLeft with
        | 0 | 1 => return ⟨error, { p with rx := received }, rx⟩
        | attemptsLeft + 2 =>
          let tx ← if rx.sizeBytes ≠ 0 then p.tx.copy rx else some p.tx
          pwtExtLoop { p with tx := tx, rx := received } rx (attemptsLeft + 1) answers
      else return ⟨error, { p with rx := received }, rx⟩

def sendBlockPwtExt (p : Poller) (txBuffer rxBuffer : BitBuffer) (answers : List Reception) :
    Option Sent := do
  let (layer, tx) ← p.layer.encodeCommand txBuffer p.tx.reset
  pwtExtLoop { p with layer := layer, tx := tx } rxBuffer sendBlockMaxAttempts answers

end NikitaFirmware.Nfc
