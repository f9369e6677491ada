import NikitaFirmware.Foundations.Bytes

/-!
# Messages of the U2F application

How a U2F message is answered (`applications/main/u2f/u2f.c`). The hash function is a parameter, and
what is signed is left out: an answer is what it says of the user and of the counter. Every message
is parsed from the payload buffer, whatever its length.
-/

namespace NikitaFirmware.U2f
open Foundations

/-! The instructions: `U2F_CMD_REGISTER` and its like. -/

def cmdRegister : UInt8 := 0x01
def cmdAuthenticate : UInt8 := 0x02
def cmdVersion : UInt8 := 0x03

/-! The control bytes of an authentication: `U2fAuthMode`. -/

def checkOnly : UInt8 := 0x07
def enforce : UInt8 := 0x03
def dontEnforce : UInt8 := 0x08

inductive NotifyEvent where
  | register | auth | authSuccess | wink | connect | disconnect | error

/-- What a message is answered with; `empty` is an answer of no bytes. -/
inductive Response where
  | empty
  | version
  | notSupported
  | userMissing
  | wrongData
  | register
  | authenticate (flags : UInt8) (counter : UInt32)

/-- `struct U2fData` -/
structure U2fData where
  deviceKey : Bytes
  counter : UInt32
  ready : Bool
  userPresent : Bool

/-- A message that was parsed: the answer, the notifications that were given on the way, and the
counter that was handed to `u2f_data_cnt_write`. -/
structure Parsed where
  u2f : U2fData
  response : Response
  notified : List NotifyEvent
  cntWrite : Option UInt32

/-! The fields of `U2fAuthReq`. -/

def p1 (buf : Bytes) : UInt8 := buf.getD 2 0
def appId (buf : Bytes) : Bytes := (buf.drop 39).take 32
def keyHandleHash (buf : Bytes) : Bytes := (buf.drop 72).take 32
def keyHandleNonce (buf : Bytes) : Bytes := (buf.drop 104).take 32

namespace U2fData
variable (hmac : Bytes → Bytes → Bytes) (u : U2fData)

def privKey (buf : Bytes) : Bytes := hmac u.deviceKey (appId buf ++ keyHandleNonce buf)

def macControl (buf : Bytes) : Bytes := hmac u.deviceKey (u.privKey hmac buf ++ appId buf)

def register (dataCheck : Bool) : Parsed :=
  if dataCheck = false then ⟨{ u with ready := false }, .notSupported, [.error], none⟩
  else if u.userPresent = false then ⟨u, .userMissing, [.register], none⟩
  else ⟨{ u with userPresent := false }, .register, [.register], none⟩

def authenticate (buf : Bytes) (dataCheck : Bool) : Parsed :=
  if dataCheck = false then ⟨{ u with ready := false }, .notSupported, [.error], none⟩
  else if u.userPresent = false ∧ p1 buf = enforce then ⟨u, .userMissing, [.auth], none⟩
  else
    let flags : UInt8 := if u.userPresent then 1 else 0
    let u := { u with userPresent := false }
    if keyHandleHash buf ≠ u.macControl hmac buf then ⟨u, .wrongData, [.auth], none⟩
    else if p1 buf = checkOnly then ⟨u, .userMissing, [.auth], none⟩
    else ⟨{ u with counter := u.counter + 1 }, .authenticate flags (u.counter + 1),
      [.auth, .authSuccess], some (u.counter + 1)⟩

def msgParse (buf : Bytes) (len : Nat) (dataCheck : Bool) : Parsed :=
  if u.ready = false then ⟨u, .empty, [], none⟩
  else if buf.getD 0 0 ≠ 0 ∧ len < 5 then ⟨u, .empty, [], none⟩
  else if buf.getD 1 0 = cmdRegister then u.register dataCheck
  else if buf.getD 1 0 = cmdAuthenticate then u.authenticate hmac buf dataCheck
  else if buf.getD 1 0 = cmdVersion then ⟨u, .version, [], none⟩
  else ⟨u, .notSupported, [], none⟩

def confirmUserPresent : U2fData := { u with userPresent := true }

def setState : U2fData := { u with userPresent := false }

end U2fData

end NikitaFirmware.U2f
