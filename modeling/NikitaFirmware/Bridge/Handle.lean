import NikitaFirmware.Foundations.Machine
import NikitaFirmware.Bridge.Text
import NikitaFirmware.Bridge.WebSocket

/-!
# One WebSocket connection of the bridge

`handle` answers the handshake and then serves frames until the peer closes or something
raises. A step of the machine below is one turn of its loop; the label says what `respond`
would return in that turn, and whether the socket still takes data.
-/

namespace NikitaFirmware.Bridge
open Foundations

def headerEnd : Bytes := ascii "\r\n\r\n"

/-- `request.split(b"\r\n")` -/
def splitLines : Bytes → List Bytes
  | [] => [[]]
  | 13 :: 10 :: bs => [] :: splitLines bs
  | b :: bs =>
    match splitLines bs with
    | line :: lines => (b :: line) :: lines
    | [] => [[b]]

def lower (b : UInt8) : UInt8 := if 65 ≤ b ∧ b ≤ 90 then b + 32 else b

def isByteSpace (b : UInt8) : Bool := (9 ≤ b && b ≤ 13) || b == 32

def websocketKey (request : Bytes) : Option Bytes :=
  ((splitLines request).filter fun line =>
    (ascii "sec-websocket-key:").isPrefixOf (line.map lower)).getLast?.map fun line =>
      (((line.dropWhile (· ≠ 58)).drop 1).dropWhile isByteSpace).rdropWhile isByteSpace

/-- The loop of `ws_handshake`: the request, or `none` where the peer closes first. A turn
that does not end it takes a byte of the stream. -/
def readRequest : Nat → Bytes → Conn → Option (Option Bytes × Conn)
  | 0, _, conn => some (none, conn)
  | turns + 1, request, conn =>
    if (strstr headerEnd request).isSome then some (some request, conn)
    else
      match recv 4096 conn with
      | none => none
      | some ([], conn) => some (none, conn)
      | some (chunk, conn) => readRequest turns (request ++ chunk) conn

inductive Handshake
  | closed
  | refused
  | accepted (key : Bytes)
  deriving DecidableEq

def wsHandshake (conn : Conn) : Option (Handshake × Conn) := do
  let (request, conn) ← readRequest (conn.stream.length + 2) [] conn
  match request with
  | none => some (.closed, conn)
  | some request =>
    match websocketKey request with
    | none | some [] => some (.refused, conn)
    | some key => some (.accepted key, conn)

structure Args where
  /-- `args.token` -/
  token : Option Text

structure Call where
  command : Text
  payload : Bytes
  /-- The stream from the first byte of the frame on. -/
  start : Bytes
  /-- The commands received on the connection before this one. -/
  heard : List Text
  deriving DecidableEq

inductive Sent
  /-- `400 Bad Request` -/
  | badRequest
  /-- `101 Switching Protocols`, with the digest of this key -/
  | switching (key : Bytes)
  | pong (payload : Bytes)
  | message (answer : Text)
  deriving DecidableEq

structure Handler where
  conn : Conn
  authorised : Bool
  running : Bool
  sent : List Sent
  calls : List Call
  heard : List Text
  deriving DecidableEq

/-- One turn: the answer of `respond`, or `none` where it raises, and whether data is sent. -/
structure Turn where
  answer : Option Text
  sends : Bool

def tokenCommand (secret : Text) : Text := text "token " ++ secret

def Handler.send (s : Handler) (turn : Turn) (m : Sent) : Handler :=
  if turn.sends then { s with sent := s.sent ++ [m] } else { s with running := false }

def Handler.respond (s : Handler) (turn : Turn) (call : Call) : Handler :=
  let s := { s with calls := s.calls ++ [call] }
  match turn.answer with
  | some answer => s.send turn (.message answer)
  | none => { s with running := false }

/-- What `handle` does with a text payload. -/
def Handler.command (args : Args) (s : Handler) (turn : Turn) (call : Call) : Handler :=
  if call.command = [] then s.send turn (.message [])
  else
    let s' := { s with heard := s.heard ++ [call.command] }
    match args.token, s.authorised with
    | some secret, false =>
      if call.command = tokenCommand secret then
        { s' with authorised := true }.send turn (.message (text "authorised"))
      else s'.send turn (.message (text "not authorised -- send: token <secret>"))
    | _, _ => s'.respond turn call

def Handler.frame (args : Args) (s : Handler) (turn : Turn) (opcode : UInt8) (call : Call) :
    Handler :=
  if opcode = 0x8 then { s with running := false }
  else if opcode = 0x9 then s.send turn (.pong call.payload)
  else if opcode ≠ 0x1 then s
  else s.command args turn call

def Handler.step (args : Args) (s : Handler) (turn : Turn) : Option Handler :=
  if s.running then
    match wsRecv s.conn with
    | some (.frame opcode payload, conn) =>
      some ({ s with conn := conn }.frame args turn opcode
        ⟨commandOf payload, payload, s.conn.stream, s.heard⟩)
    | some (.closed, conn) => some { s with conn := conn, running := false }
    | none => some { s with running := false }
  else none

def Handler.machine (args : Args) : Machine Handler Turn := ⟨Handler.step args⟩

/-- `handle` before its loop: the connection behind the handshake, not authorised unless
there is no token. -/
def handle (args : Args) (sends : Bool) (conn : Conn) : Handler :=
  let fresh (conn : Conn) (running : Bool) : Handler :=
    ⟨conn, args.token.isNone, running, [], [], []⟩
  match wsHandshake conn with
  | some (.accepted key, conn) => (fresh conn true).send ⟨none, sends⟩ (.switching key)
  | some (.refused, conn) => (fresh conn false).send ⟨none, sends⟩ .badRequest
  | some (.closed, conn) => fresh conn false
  | none => fresh conn false

end NikitaFirmware.Bridge
