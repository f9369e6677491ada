import NikitaFirmware.Foundations.Bytes
import NikitaFirmware.Foundations.Machine
import NikitaFirmware.Storage.Paths

/-!
# The storage requests of an RPC session

The handlers of the storage requests (`applications/services/rpc/rpc_storage.c`). A write command
comes in several requests with one command id, and any other storage request interrupts it. What the
storage answers is carried by the events; what a handler does to other files than the one that is
written is, too.
-/

namespace NikitaFirmware.RpcStorage
open Foundations NikitaFirmware.Storage

/-- `PB_CommandStatus`, as far as the storage sets it. -/
inductive Status
  | ok
  | error
  | errorInvalidParameters
  | errorContinuousCommandInterrupted
  | errorStorageNotReady
  | errorStorageExist
  | errorStorageNotExist
  | errorStorageInvalidParameter
  | errorStorageDenied
  | errorStorageInvalidName
  | errorStorageInternal
  | errorStorageNotImplemented
  | errorStorageAlreadyOpen
  | errorStorageDirNotEmpty
  deriving DecidableEq

def getError : FsError → Status
  | .ok => .ok
  | .invalidName => .errorStorageInvalidName
  | .invalidParameter => .errorStorageInvalidParameter
  | .internal => .errorStorageInternal
  | .alreadyOpen => .errorStorageAlreadyOpen
  | .denied => .errorStorageDenied
  | .exist => .errorStorageExist
  | .notExist => .errorStorageNotExist
  | .notReady => .errorStorageNotReady
  | .notImplemented => .errorStorageNotImplemented

/-- `path_contains_only_ascii`, which is about the name at the end of the path. -/
def pathContainsOnlyAscii : Option Path → Bool
  | none => false
  | some path => (path.reverse.takeWhile (· != '/')).all fun c =>
      ' ' ≤ c && c ≤ '~' && !"\\<>*|\":?".toList.contains c

/-- An entry of a directory, as `PB_Storage_File`. -/
structure DirEntry where
  isDir : Bool
  size : Nat
  name : Path
  md5sum : Option Path
  deriving DecidableEq

inductive Content
  | empty
  | read (data : Bytes)
  | list (files : List DirEntry)
  | result
  deriving DecidableEq

/-- A `PB_Main` that is sent. -/
structure Reply where
  commandId : UInt32
  status : Status
  hasNext : Bool
  content : Content
  deriving DecidableEq

/-- `PB_Storage_WriteRequest`, in its `PB_Main`; the data is there if `has_file` is set. -/
structure WriteRequest where
  commandId : UInt32
  hasNext : Bool
  path : Option Path
  data : Option Bytes

/-- What the storage answers to a write request. -/
structure WriteOutcome where
  opened : Bool
  written : Nat
  error : FsError

/-- What the storage answers to a read request: the content of the file, if it is opened, and how
much each read gives. -/
structure ReadOutcome where
  content : Option Bytes
  given : Nat → Nat
  error : FsError

/-- The requests, with what the storage answers. -/
inductive Event
  | write (request : WriteRequest) (outcome : WriteOutcome)
  | read (commandId : UInt32) (outcome : ReadOutcome)
  | list (commandId : UInt32) (path : Path) (filterMaxSize : Nat)
      (entries : Except FsError (List DirEntry))
  | other (commandId : UInt32) (status : Status) (content : Content) (fs : Path → Option Bytes)

def Event.commandId : Event → UInt32
  | .write request _ => request.commandId
  | .read commandId _ => commandId
  | .list commandId _ _ _ => commandId
  | .other commandId _ _ _ => commandId

inductive State
  | idle
  | writing
  deriving DecidableEq

/-- `RpcStorageSystem`, with the content of the files, what was sent on the session, and the requests
that were handled. Of the open file its path is kept; it was empty when it was opened, so its pointer
is at its end. -/
structure System where
  state : State
  file : Path
  currentCommandId : UInt32
  fs : Path → Option Bytes
  sent : List Reply
  requests : List Event

def maxDataSize : Nat := 512

namespace System

def alloc (fs : Path → Option Bytes) : System := ⟨.idle, [], 0, fs, [], []⟩

def send (s : System) (reply : Reply) : System := { s with sent := s.sent ++ [reply] }

def sendEmpty (s : System) (commandId : UInt32) (status : Status) : System :=
  s.send ⟨commandId, status, false, .empty⟩

def resetState (s : System) (sendError : Bool) : System :=
  match s.state with
  | .idle => s
  | .writing =>
    let s := if sendError then s.sendEmpty s.currentCommandId .errorContinuousCommandInterrupted
      else s
    { s with state := .idle }

/-- `rpc_system_storage_write_process`, where the transfer is begun. -/
def beginWrite (s : System) (request : WriteRequest) (path : Path) (opened : Bool) :
    System × Bool :=
  match s.state with
  | .writing => (s, true)
  | .idle =>
    let s := { s with file := path, currentCommandId := request.commandId, state := .writing }
    if opened then
      ({ s with fs := fun p => if p = path then some [] else s.fs p }, true)
    else (s, false)

/-- `rpc_system_storage_write_process`, where the data is written: `storage_file_write` has stored
`written` bytes of it, at most all of them. -/
def writeData (s : System) (data : Bytes) (written : Nat) : System × Bool :=
  if data = [] then (s, true)
  else
    let stored := data.take written
    ({ s with fs := fun p => if p = s.file then (s.fs p).map (· ++ stored) else s.fs p },
      stored.length == data.length)

/-- `rpc_system_storage_write_process`, where the request is replied to. -/
def endWrite (s : System) (hasNext success : Bool) (error : FsError) : System :=
  if success then
    if hasNext then s else (s.sendEmpty s.currentCommandId .ok).resetState false
  else
    let status := if getError error = .ok then .errorStorageInternal else getError error
    (s.sendEmpty s.currentCommandId status).resetState false

def writeProcess (s : System) (request : WriteRequest) (outcome : WriteOutcome) : System :=
  if pathContainsOnlyAscii request.path then
    let s := if request.commandId ≠ s.currentCommandId ∧ s.state = .writing then s.resetState true
      else s
    match s.beginWrite request (request.path.getD []) outcome.opened with
    | (s, false) => s.endWrite request.hasNext false outcome.error
    | (s, true) =>
      match s.writeData (request.data.getD []) outcome.written with
      | (s, success) => s.endWrite request.hasNext success outcome.error
  else
    let s := { s with currentCommandId := request.commandId }
    (s.sendEmpty request.commandId .errorStorageInvalidName).resetState false

/-- The loop of `rpc_system_storage_read_process`, with the replies and whether all was read. -/
def readLoop (commandId : UInt32) (given : Nat → Nat) : Nat → Nat → Bytes → List Reply × Bool
  | 0, _, _ => ([], true)
  | fuel + 1, i, left =>
    let data := (left.take maxDataSize).take (given i)
    let success := data.length == (left.take maxDataSize).length
    let rest := left.drop data.length
    if success then
      let reply : Reply := ⟨commandId, .ok, !rest.isEmpty, .read data⟩
      if rest.isEmpty then ([reply], true)
      else
        let (replies, success) := readLoop commandId given fuel (i + 1) rest
        (reply :: replies, success)
    else ([], false)

def readProcess (s : System) (commandId : UInt32) (outcome : ReadOutcome) : System :=
  let s := s.resetState true
  match outcome.content with
  | none => s.sendEmpty commandId (getError outcome.error)
  | some content =>
    let (replies, success) := readLoop commandId outcome.given (content.length + 1) 0 content
    let s := { s with sent := s.sent ++ replies }
    if success then s else s.sendEmpty commandId (getError outcome.error)

/-- The loop of `rpc_system_storage_list_process` over the entries that pass its filter; a full
response of `capacity` files is sent when there is one more. -/
def listLoop (commandId : UInt32) (capacity : Nat) : List DirEntry → List DirEntry → List Reply
  | files, [] => [⟨commandId, .ok, false, .list files⟩]
  | files, entry :: entries =>
    if files.length = capacity then
      ⟨commandId, .ok, true, .list files⟩ :: listLoop commandId capacity [entry] entries
    else listLoop commandId capacity (files ++ [entry]) entries

def listFilter (filterMaxSize : Nat) (entry : DirEntry) : Bool :=
  pathContainsOnlyAscii (some entry.name) && (filterMaxSize == 0 || decide (entry.size ≤ filterMaxSize))

def listRoot : List DirEntry :=
  ["any", "int", "ext"].map fun name => ⟨true, 0, name.toList, none⟩

/-- `rpc_system_storage_list_process`; `entries` are those that the directory gives, or the error is
that of `storage_dir_open`. -/
def listProcess (capacity : Nat) (s : System) (commandId : UInt32) (path : Path)
    (filterMaxSize : Nat) (entries : Except FsError (List DirEntry)) : System :=
  let s := s.resetState true
  if path = "/".toList then s.send ⟨commandId, .ok, false, .list listRoot⟩
  else match entries with
    | .error error => s.send ⟨commandId, getError error, false, .empty⟩
    | .ok entries =>
      let replies := listLoop commandId capacity [] (entries.filter (listFilter filterMaxSize))
      { s with sent := s.sent ++ replies }

/-- The handlers of the other requests: each replies once, and does to the files what the storage
makes of it. -/
def otherProcess (s : System) (commandId : UInt32) (status : Status) (content : Content)
    (fs : Path → Option Bytes) : System :=
  ({ s.resetState true with fs }).send ⟨commandId, status, false, content⟩

end System

/-- The handler of the request; a list response holds `capacity` files. -/
def System.handle (capacity : Nat) (s : System) : Event → System
  | .write request outcome => s.writeProcess request outcome
  | .read commandId outcome => s.readProcess commandId outcome
  | .list commandId path filterMaxSize entries =>
    s.listProcess capacity commandId path filterMaxSize entries
  | .other commandId status content fs => s.otherProcess commandId status content fs

/-- The session, as it handles its storage requests. -/
def machine (capacity : Nat) : Machine System Event where
  step s ev := some { s.handle capacity ev with requests := s.requests ++ [ev] }

end NikitaFirmware.RpcStorage
