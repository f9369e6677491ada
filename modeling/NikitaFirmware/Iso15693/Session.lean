import NikitaFirmware.Iso15693.Listener

/-!
# The emulated session of ISO15693 cards

The listener of `iso15693_3_listener.c` and `iso15693_3_listener_i.c` with the state of the card,
without a protocol extension: the flags of a request, the commands besides those for the memory,
and the ends of frames that the reader sends alone.
-/

namespace NikitaFirmware.Iso15693
open Nfc

inductive State
  | ready
  | selected
  | quiet
  deriving DecidableEq

/-- `Iso15693_3Listener` with its card and `Iso15693_3ListenerSessionState`. -/
structure Session extends Listener where
  uid : List Byte
  length_uid : uid.length = 8
  flags : Byte
  dsfid : Byte
  afi : Byte
  icRef : Byte
  lockDsfid : Bool
  lockAfi : Bool
  state : State
  selected : Bool
  addressed : Bool

inductive RequestError
  | unknown
  | ignore
  | format
  | internal
  | notSupported
  | uidMismatch
  deriving DecidableEq

/-- A frame that has been received, without its checksum: `size` bytes, and what follows them in the
array of the receiving buffer. -/
@[ext] structure Frame where
  data : List Byte
  size : Nat
  size_le : size ≤ data.length

namespace Frame

instance : DecidableEq Frame := fun _ _ => decidable_of_iff _ Frame.ext_iff.symm

def flags (f : Frame) : Byte := f.data.getD 0 0

def command (f : Frame) : Byte := f.data.getD 1 0

def inventory (f : Frame) : Bool := f.flags &&& 0x04 != 0

def selected (f : Frame) : Bool := f.flags &&& 0x10 != 0

def addressed (f : Frame) : Bool := f.flags &&& 0x20 != 0

def option (f : Frame) : Bool := f.flags &&& 0x40 != 0

/-- The bytes of the UID in an addressed request, from its last one on. -/
def uid (f : Frame) : List Byte := ((f.data.drop 2).take 8).reverse

/-- What a handler gets of a frame for a command of the memory, behind `offset` bytes. -/
def request (f : Frame) (offset : Nat) (command : Command) : Request where
  command := command
  flags := f.flags
  data := f.data.drop offset
  size := f.size - offset
  size_le := by
    rw [List.length_drop]
    have hsize := f.size_le
    omega

end Frame

/-- The entries of `Iso15693_3ListenerHandlerTable`. -/
inductive Handler
  | inventory
  | stayQuiet
  | memory (command : Command)
  | select
  | resetToReady
  | writeAfi
  | lockAfi
  | writeDsfid
  | lockDsfid
  | getSystemInfo

namespace Handler

def mandatory : List Handler := [.inventory, .stayQuiet]

def optional : List Handler :=
  [.memory .readBlock, .memory .writeBlock, .memory .lockBlock, .memory .readMultiBlocks,
    .memory .writeMultiBlocks, .select, .resetToReady, .writeAfi, .lockAfi, .writeDsfid, .lockDsfid,
    .getSystemInfo, .memory .getBlocksSecurity]

/-- The entry for a command, if there is one. The commands below `ISO15693_3_CMD_MANDATORY_RFU`
include zero, which is in front of the first mandatory one. -/
def find (command : Byte) : Option (Option Handler) :=
  if command.toNat < 0x03 then
    if command.toNat = 0 then none else some mandatory[command.toNat - 0x01]?
  else if 0x20 ≤ command.toNat ∧ command.toNat < 0x2D then some optional[command.toNat - 0x20]?
  else some none

end Handler

namespace Session

structure Handled where
  error : Option Error
  session : Session
  tx : BitBuffer

variable (s : Session) (f : Frame) (offset : Nat) (tx : BitBuffer)

def fail (e : Error) : Handled := ⟨some e, s, tx⟩

def waitIf (wait : Bool) : Session := { s with waitForEof := wait }

def appendUid : Option BitBuffer := s.uid.reverse.foldlM BitBuffer.appendByte tx

/-- A byte of a request behind its header. -/
def byteAt (i : Nat) : Byte := f.data.getD (offset + i) 0

def inventoryHandler : Option Handled :=
  let afiFlag := f.flags &&& 0x10 != 0
  let min := if afiFlag then 2 else 1
  if f.size - offset < min then some (s.fail tx .format)
  -- a request for other cards is answered with the flags of the answer alone
  else if afiFlag && byteAt f offset 0 != 0 && byteAt f offset 0 != s.afi then some ⟨none, s, tx⟩
  else if f.size - offset ≠ min + (byteAt f offset (min - 1)).toNat then some (s.fail tx .format)
  else do
    let tx ← tx.appendByte s.dsfid
    let tx ← s.appendUid tx
    return ⟨none, s, tx⟩

def stayQuietHandler : Option Handled := some ({ s with state := .quiet }.fail tx .ignore)

def selectHandler : Option Handled :=
  if f.addressed then some ⟨none, { s with state := .selected }, tx⟩
  else some (s.fail tx .format)

def resetToReadyHandler : Option Handled := some ⟨none, { s with state := .ready }, tx⟩

def writeAfiHandler : Option Handled :=
  let s := s.waitIf f.option
  if f.size - offset ≤ 1 then some (s.fail tx .format)
  else if s.lockAfi then some (s.fail tx .internal)
  else some ⟨none, { s with afi := byteAt f offset 0 }, tx⟩

def lockAfiHandler : Option Handled :=
  let s := s.waitIf f.option
  if s.lockAfi then some (s.fail tx .internal)
  else some ⟨none, { s with lockAfi := true }, tx⟩

def writeDsfidHandler : Option Handled :=
  let s := s.waitIf f.option
  if f.size - offset ≤ 1 then some (s.fail tx .format)
  else if s.lockDsfid then some (s.fail tx .internal)
  else some ⟨none, { s with dsfid := byteAt f offset 0 }, tx⟩

def lockDsfidHandler : Option Handled :=
  let s := s.waitIf f.option
  if s.lockDsfid then some (s.fail tx .internal)
  else some ⟨none, { s with lockDsfid := true }, tx⟩

/-- The bytes that the flags of the system information announce. -/
def systemInfo : List Byte :=
  (if s.flags &&& 0x01 != 0 then [s.dsfid] else []) ++
  (if s.flags &&& 0x02 != 0 then [s.afi] else []) ++
  (if s.flags &&& 0x04 != 0 then
    [UInt8.ofNat (s.card.blockCount + 255), UInt8.ofNat (s.card.blockSize + 255)] else []) ++
  (if s.flags &&& 0x08 != 0 then [s.icRef] else [])

def getSystemInfoHandler : Option Handled := do
  let tx ← tx.appendByte s.flags
  let tx ← s.appendUid tx
  let tx ← tx.appendBytes s.systemInfo
  return ⟨none, s, tx⟩

def memoryHandler (command : Command) : Option Handled :=
  (s.toListener.handler (f.request offset command) tx).map fun h =>
    ⟨h.error, { s with toListener := h.listener }, h.tx⟩

def handle : Handler → Option Handled
  | .inventory => s.inventoryHandler f offset tx
  | .stayQuiet => s.stayQuietHandler tx
  | .memory command => s.memoryHandler f offset tx command
  | .select => s.selectHandler f tx
  | .resetToReady => s.resetToReadyHandler tx
  | .writeAfi => s.writeAfiHandler f offset tx
  | .lockAfi => s.lockAfiHandler f tx
  | .writeDsfid => s.writeDsfidHandler f offset tx
  | .lockDsfid => s.lockDsfidHandler f tx
  | .getSystemInfo => s.getSystemInfoHandler tx

/-- What becomes of something that has been received. -/
structure Outcome where
  error : Option RequestError
  session : Session
  sent : Option BitBuffer

/-- The end of `iso15693_3_listener_handle_standard_request`. -/
def reply (error : Option RequestError) : Option Outcome :=
  if s.waitForEof then some ⟨error, s, none⟩
  else (Listener.crcAppend tx).map fun frame => ⟨none, s, some frame⟩

def finish (h : Handled) : Option Outcome :=
  match h.error with
  | some .format => some ⟨some .format, h.session, none⟩
  | some .ignore => some ⟨some .ignore, h.session, none⟩
  | some .internal =>
    (h.tx.reset.appendByte 0x01).bind fun tx =>
      (tx.appendByte 0x0F).bind fun tx => h.session.reply tx (some .internal)
  | none => h.session.reply h.tx none

def handleStandardRequest : Option Outcome :=
  (Handler.find f.command).bind fun handler =>
    match handler with
    | none => some ⟨some .notSupported, s, none⟩
    | some handler =>
      ((BitBuffer.alloc Listener.bufferSize).appendByte 0x00).bind fun tx =>
        (s.handle f offset tx handler).bind finish

def handleCustomRequest : Outcome :=
  if f.size - 2 < 1 then ⟨some .format, s, none⟩
  else if f.data.getD 2 0 != s.uid.getD 1 0 then ⟨some .ignore, s, none⟩
  else ⟨some .notSupported, s, none⟩

/-- The mode of a request is noted, whether the request is taken or not. -/
def note : Session :=
  if f.inventory then { s with selected := false, addressed := false }
  else { s with selected := f.selected, addressed := f.addressed }

/-- What the flags of a request are refused with, in the state of the card. -/
def refusal : Option RequestError :=
  if f.inventory then if s.state = .quiet then some .ignore else none
  else if f.selected && f.addressed then some .unknown
  else if s.state = .quiet then if f.addressed then some .ignore else none
  else if s.state ≠ .selected then if f.selected then some .ignore else none
  else none

/-- The commands from `ISO15693_3_CMD_CUSTOM_START` on are left to the protocol above. -/
def dispatch : Option Outcome :=
  if 0xA0 ≤ f.command.toNat then some (s.handleCustomRequest f)
  else if s.addressed then
    if f.size < 10 then some ⟨some .format, s, none⟩
    else if s.uid ≠ f.uid then some ⟨some .uidMismatch, s, none⟩
    else s.handleStandardRequest f 10
  else s.handleStandardRequest f 2

/-- `iso15693_3_listener_process_request`. Inventories of a quiet card leave the mode as it is. -/
def processRequest : Option Outcome :=
  if f.size < 2 then some ⟨some .format, s, none⟩
  else
    match s.refusal f with
    | some error =>
      some ⟨some error, if f.inventory then s else s.note f, none⟩
    | none => (s.note f).dispatch f

def processUidMismatch : Session :=
  if f.command = 0x25 ∧ s.state = .selected then { s with state := .ready } else s

def processSingleEof : Option Outcome :=
  if s.waitForEof then
    (Listener.crcAppend (BitBuffer.alloc Listener.bufferSize)).map fun frame =>
      ⟨none, s.waitIf false, some frame⟩
  else some ⟨none, s, none⟩

/-- What the listener receives: a request, the end of a frame alone, or something with a wrong
checksum. -/
inductive Received
  | request (f : Frame)
  | eof
  | broken

/-- `iso15693_3_listener_run` -/
def receive : Received → Option Outcome
  | .request f => (s.processRequest f).map fun o =>
    if o.error = some .uidMismatch then { o with session := o.session.processUidMismatch f } else o
  | .eof => s.processSingleEof
  | .broken => some ⟨none, s, none⟩

end Session

end NikitaFirmware.Iso15693
