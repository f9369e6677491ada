import NikitaFirmware.Foundations.Decode
import NikitaFirmware.Foundations.Machine

/-!
# An RPC session

The worker of a session decodes one message after the other from a stream buffer that the
transport fills with `rpc_session_feed`, and hands each to its handler; `rpc_session_close` may come
while it stands anywhere. The message decoder, `pb_decode_ex`, is a parameter that gets its bytes
from `rpc_pb_stream_read`. What a handler does besides sending is not modelled.
-/

namespace NikitaFirmware.Rpc
open Foundations

def rpcBufferSize : Nat := 1024

inductive CommandStatus
  | errorDecode
  | errorNotImplemented

structure RpcHandler where
  messageHandler : Bool

/-- The protocol of a session: its decoder, the fields of a message that the worker reads, the
encoding of an empty response and the handlers by content tag. -/
structure Protocol (M : Type) where
  decoder : Request M
  whichContent : M → Nat
  commandId : M → UInt32
  encodeEmpty : UInt32 → CommandStatus → Bytes
  handlers : Nat → Option RpcHandler

/-- What the worker does with a decoded message. -/
inductive Disposition
  | handle
  | contentless
  | notImplemented
  | ignore
  deriving DecidableEq

def Protocol.disposition {M : Type} (p : Protocol M) (m : M) : Disposition :=
  match p.handlers (p.whichContent m) with
  | some h =>
    if h.messageHandler then .handle
    else if p.whichContent m = 0 then .contentless
    else .ignore
  | none => if p.whichContent m = 0 then .contentless else .notImplemented

/-- The callbacks of the transport that `rpc_session_close` clears. -/
inductive Callback
  | sendBytes
  | closed
  | bufferIsEmpty
  deriving DecidableEq

/-- Who calls `rpc_send`: a handler, the worker itself, or another thread. -/
inductive Origin
  | handler
  | notImplemented
  | errorDecode
  | other
  deriving DecidableEq

/-- What is done inside a section that holds `callbacks_mutex`. -/
inductive Action
  | send (origin : Origin) (data : Bytes)
  | callClosed (origin : Origin)
  | clear (callback : Callback)

inductive Thread
  | worker
  | closer
  | other
  deriving DecidableEq

/-- What can be seen of a session from outside. -/
inductive Event (M : Type)
  | handled (m : M)
  | errorDecode
  | sent (origin : Origin) (data : Bytes)
  | closed (origin : Origin)
  | bufferIsEmpty
  | closeReturned

/-- Where the worker goes on after a section. -/
inductive After (M : Type)
  | handling (m : M)
  | errorClose
  | release

/-- Where the worker stands: in `pb_decode_ex`, in the loop of `rpc_pb_stream_read` for a
request of which some bytes have been received, or past the decoding. -/
inductive Pc (M : Type)
  | decode (d : Decode M)
  | receive (q : Request M) (received : Bytes)
  | wait (q : Request M) (received : Bytes)
  | disconnect (q : Request M) (received : Bytes)
  | busy (m : M)
  | handling (m : M)
  | unbusy
  | notImplemented (m : M)
  | failed
  | errorSend
  | errorClose
  | inSection (next : After M)
  | release
  | ended

def After.pc {M : Type} : After M → Pc M
  | .handling m => .handling m
  | .errorClose => .errorClose
  | .release => .release

/-- Where a call of `rpc_session_close` stands. -/
inductive Closer
  | idle
  | clearing (todo : List Callback)
  | inSection (todo : List Callback)
  | returned

structure State (M : Type) where
  stream : Bytes
  newData : Bool
  disconnect : Bool
  terminate : Bool
  decodeError : Bool
  /-- The callbacks that are installed. -/
  callbacks : Callback → Bool
  /-- The section that holds `callbacks_mutex`, and what it still has to do. -/
  callbacksMutex : Option (Thread × Option Action)
  busyMutex : Option Thread
  pc : Pc M
  /-- The transport is inside `rpc_session_feed`, before it raises its flag. -/
  feeding : Bool
  closer : Closer
  /-- All bytes that were accepted, and those of them that came after `terminate` was set. -/
  fed : Bytes
  late : Bytes
  log : List (Event M)

namespace State

variable {M : Type}

def enter (s : State M) (t : Thread) (a : Action) : Option (State M) :=
  if s.callbacksMutex = none then some { s with callbacksMutex := some (t, some a) } else none

theorem enter_eq_some {s s' : State M} {t : Thread} {a : Action} (h : s.enter t a = some s') :
    s.callbacksMutex = none ∧ s' = { s with callbacksMutex := some (t, some a) } := by
  rw [enter] at h
  split at h
  next hm => exact ⟨hm, (Option.some.inj h).symm⟩
  next => simp at h

def emit (s : State M) (e : Event M) : State M := { s with log := s.log ++ [e] }

def emitIf (s : State M) (c : Callback) (e : Event M) : State M :=
  if s.callbacks c then s.emit e else s

@[simp] theorem emitIf_callbacksMutex (s : State M) (c : Callback) (e : Event M) :
    (s.emitIf c e).callbacksMutex = s.callbacksMutex := by
  rw [emitIf]
  split <;> rfl

def perform (s : State M) : Action → State M
  | .send origin data => s.emitIf .sendBytes (.sent origin data)
  | .callClosed origin => s.emitIf .closed (.closed origin)
  | .clear c => { s with callbacks := Function.update s.callbacks c false }

end State

section Steps

variable {M : Type} (p : Protocol M)

/-- `furi_stream_buffer_send` of `rpc_session_feed`: what fits is appended. -/
def feed (data : Bytes) (s : State M) : Option (State M) :=
  if s.feeding = false ∧ s.stream.length + data.length ≤ rpcBufferSize then
    some { s with
      stream := s.stream ++ data
      feeding := true
      fed := s.fed ++ data
      late := if s.terminate then s.late ++ data else s.late }
  else none

def feedFlag (s : State M) : Option (State M) :=
  if s.feeding then some { s with newData := true, feeding := false } else none

/-- The transport is told when the worker has emptied the buffer. -/
def notifyEmpty (s : State M) : State M :=
  if s.stream = [] then s.emitIf .bufferIsEmpty .bufferIsEmpty else s

/-- What has been received for a request after one more `furi_stream_buffer_receive`; once a
message could not be decoded, it is thrown away. -/
def gather (q : Request M) (received : Bytes) (s : State M) : Bytes :=
  if s.decodeError then [] else received ++ s.stream.take (q.n + 1 - received.length)

/-- One round of the loop of `rpc_pb_stream_read`, up to its wait. -/
def receive (q : Request M) (received : Bytes) (s : State M) : State M :=
  notifyEmpty { s with
    stream := s.stream.drop (q.n + 1 - received.length)
    pc := if (gather q received s).length = q.n + 1 then .decode (q.next (gather q received s))
      else .wait q (gather q received s) }

/-- `furi_thread_flags_wait` returns, and clears both flags. -/
def wake (q : Request M) (received : Bytes) (s : State M) : Option (State M) :=
  if s.newData || s.disconnect then
    some { s with
      newData := false
      disconnect := false
      pc := if s.disconnect then .disconnect q received else .receive q received }
  else none

/-- The disconnect flag has been taken: the worker ends what it has in its buffer first. -/
def testEmpty (q : Request M) (received : Bytes) (s : State M) : State M :=
  if s.stream = [] then { s with terminate := true, pc := .decode q.eof }
  else { s with disconnect := true, pc := .receive q received }

/-- The branches of `rpc_session_worker` on a decoded message. -/
def dispatch (m : M) (s : State M) : State M :=
  match p.disposition m with
  | .handle => { s with pc := .busy m }
  | .contentless => { s with pc := .failed }
  | .notImplemented => { s with pc := if s.terminate then .release else .notImplemented m }
  | .ignore => { s with pc := .release }

/-- One step of the worker thread outside its sections and handlers. -/
def worker (s : State M) : Option (State M) :=
  match s.pc with
  | .decode (.ret m) => some (dispatch p m s)
  | .decode .fail => some { s with pc := .failed }
  | .decode (.read n next eof refused) =>
    if s.terminate then some { s with pc := .decode refused }
    else some { s with pc := .receive ⟨n, next, eof, refused⟩ [] }
  | .receive q received => some (receive q received s)
  | .wait q received => wake q received s
  | .disconnect q received => some (testEmpty q received s)
  | .busy m =>
    if s.busyMutex = none then
      some ({ s with busyMutex := some .worker, pc := .handling m }.emit (.handled m))
    else none
  | .unbusy => some { s with busyMutex := none, pc := .release }
  | .notImplemented m =>
    (s.enter .worker (.send .notImplemented
      (p.encodeEmpty (p.commandId m) .errorNotImplemented))).map
      ({ · with pc := .inSection .release })
  | .errorSend =>
    (s.enter .worker (.send .errorDecode (p.encodeEmpty 0 .errorDecode))).map fun s =>
      { s with pc := .inSection .errorClose }.emit .errorDecode
  | .errorClose =>
    (s.enter .worker (.callClosed .errorDecode)).map ({ · with pc := .inSection .release })
  | .release => some { s with pc := if s.terminate then .ended else .decode p.decoder.start }
  | .handling _ | .failed | .inSection _ | .ended => none

/-- The decoding failed: the stream is reset, which a writer that waits for space prevents. -/
def reset (ok : Bool) (s : State M) : Option (State M) :=
  match s.pc with
  | .failed =>
    let s := { s with stream := if ok then [] else s.stream }
    if s.terminate then some { s with pc := .release }
    else some { s with decodeError := true, pc := .errorSend }
  | _ => none

/-- A handler calls `rpc_send`, or the closed callback as `rpc_close_session_process` does. -/
def handlerAction (a : Action) (s : State M) : Option (State M) :=
  match s.pc with
  | .handling m => (s.enter .worker a).map ({ · with pc := .inSection (.handling m) })
  | _ => none

def handlerReturn (s : State M) : Option (State M) :=
  match s.pc with
  | .handling _ => some { s with pc := .unbusy }
  | _ => none

/-- `busy_mutex` belongs to all sessions. -/
def otherBusy (s : State M) : Option (State M) :=
  if s.busyMutex = none then some { s with busyMutex := some .other } else none

def otherUnbusy (s : State M) : Option (State M) :=
  if s.busyMutex = some .other then some { s with busyMutex := none } else none

def act (s : State M) : Option (State M) :=
  match s.callbacksMutex with
  | some (t, some a) => some { s.perform a with callbacksMutex := some (t, none) }
  | _ => none

/-- The mutex is released and its thread goes on. -/
def leave (s : State M) : Option (State M) :=
  match s.callbacksMutex with
  | some (.worker, none) =>
    match s.pc with
    | .inSection next => some { s with callbacksMutex := none, pc := next.pc }
    | _ => none
  | some (.closer, none) =>
    match s.closer with
    | .inSection todo => some { s with callbacksMutex := none, closer := .clearing todo }
    | _ => none
  | some (.other, none) => some { s with callbacksMutex := none }
  | _ => none

/-- The steps of `rpc_session_close`. -/
def close (s : State M) : Option (State M) :=
  match s.closer with
  | .idle => some { s with closer := .clearing [.sendBytes, .closed, .bufferIsEmpty] }
  | .clearing (c :: todo) =>
    (s.enter .closer (.clear c)).map ({ · with closer := .inSection todo })
  | .clearing [] =>
    some ({ s with disconnect := true, closer := .returned }.emit .closeReturned)
  | .inSection _ | .returned => none

end Steps

inductive Label
  | feed (data : Bytes)
  | feedFlag
  | worker
  | reset (ok : Bool)
  | handlerSend (data : Bytes)
  | handlerClosed
  | handlerReturn
  | otherSend (data : Bytes)
  | otherBusy
  | otherUnbusy
  | act
  | leave
  | close

variable {M : Type}

def step (p : Protocol M) (s : State M) : Label → Option (State M)
  | .feed data => feed data s
  | .feedFlag => feedFlag s
  | .worker => worker p s
  | .reset ok => reset ok s
  | .handlerSend data => handlerAction (.send .handler data) s
  | .handlerClosed => handlerAction (.callClosed .handler) s
  | .handlerReturn => handlerReturn s
  | .otherSend data => s.enter .other (.send .other data)
  | .otherBusy => otherBusy s
  | .otherUnbusy => otherUnbusy s
  | .act => act s
  | .leave => leave s
  | .close => close s

def machine (p : Protocol M) : Machine (State M) Label := ⟨step p⟩

/-- A session that has just been opened, with the callbacks of its transport installed; not
every transport wants to know that the buffer is empty. -/
def opened (p : Protocol M) (bufferIsEmpty : Bool) : State M where
  stream := []
  newData := false
  disconnect := false
  terminate := false
  decodeError := false
  callbacks
    | .sendBytes | .closed => true
    | .bufferIsEmpty => bufferIsEmpty
  callbacksMutex := none
  busyMutex := none
  pc := .decode p.decoder.start
  feeding := false
  closer := .idle
  fed := []
  late := []
  log := []

end NikitaFirmware.Rpc
