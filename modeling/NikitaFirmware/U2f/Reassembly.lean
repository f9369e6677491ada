import NikitaFirmware.Foundations.Bytes
import NikitaFirmware.Foundations.Machine
import Mathlib.Data.List.GetD
import Mathlib.Order.Nat

/-!
# The HID transport of the U2F application

The worker that puts U2F messages together from HID packets and answers them
(`applications/main/u2f/u2f_hid.c`). A write outside the payload buffer has no result; what the
message parser answers is carried by the packets.
-/

namespace NikitaFirmware.U2f
open Foundations List Option

def packetLen : Nat := 64

def maxPayloadLen : Nat := (packetLen - 7) + 128 * (packetLen - 5)

/-! The commands: `U2F_HID_PING` and its like. -/

def cmdPing : UInt8 := 0x81
def cmdMsg : UInt8 := 0x83
def cmdLock : UInt8 := 0x84
def cmdInit : UInt8 := 0x86
def cmdWink : UInt8 := 0x88
def cmdError : UInt8 := 0xbf

def errInvalidCmd : UInt8 := 0x01

def broadcastCid : Bytes := [0xff, 0xff, 0xff, 0xff]

/-- `struct U2fHid_packet`; the channel id is kept as its four bytes. -/
structure Packet where
  cid : Bytes
  len : Nat
  cmd : UInt8
  payload : Bytes

/-- A request as it is handed to `u2f_hid_parse_request`. -/
structure Message where
  cid : Bytes
  cmd : UInt8
  data : Bytes
  deriving DecidableEq

/-- `struct U2fHid`, with the stack buffer of the worker, the requests that were parsed and the
packets that were sent. -/
structure Hid where
  seqIdLast : Nat
  reqBufPtr : Nat
  reqLenLeft : Nat
  lockCid : Bytes
  lock : Bool
  packet : Packet
  packetBuf : Bytes
  parsed : List Message
  sent : List Bytes

/-- What a request is answered with: the response of `u2f_msg_parse`, none if it is empty, and a
random number. -/
structure Answer where
  response : Bytes
  random : Bytes

/-- Bytes are copied into the payload buffer. -/
def Packet.write (packet : Packet) (offset : Nat) (data : Bytes) : Option Packet :=
  if offset + data.length ≤ maxPayloadLen then
    some { packet with
      payload := packet.payload.take offset ++ data ++ packet.payload.drop (offset + data.length) }
  else none

def padded (data : Bytes) : Bytes := data ++ List.replicate (packetLen - data.length) 0

def continuationPackets (cid : Bytes) : Nat → Nat → Bytes → List Bytes
  | 0, _, _ => []
  | fuel + 1, seqCnt, remain =>
    if remain = [] then []
    else padded (cid ++ [UInt8.ofNat seqCnt] ++ remain.take (packetLen - 5)) ::
      continuationPackets cid fuel (seqCnt + 1) (remain.drop (packetLen - 5))

namespace Hid

def start (packetBuf : Bytes) : Hid where
  seqIdLast := 0
  reqBufPtr := 0
  reqLenLeft := 0
  lockCid := [0, 0, 0, 0]
  lock := false
  packet := ⟨[0, 0, 0, 0], 0, 0, List.replicate maxPayloadLen 0⟩
  packetBuf := packetBuf
  parsed := []
  sent := []

def sendResponse (s : Hid) : Hid :=
  let data := s.packet.payload.take s.packet.len
  let initPacket := padded (s.packet.cid ++ [s.packet.cmd, UInt8.ofNat (s.packet.len / 256),
    UInt8.ofNat s.packet.len] ++ data.take (packetLen - 7))
  { s with sent := s.sent ++ initPacket ::
    continuationPackets s.packet.cid data.length 0 (data.drop (packetLen - 7)) }

def sendError (s : Hid) (error : UInt8) : Option Hid := do
  let packet ← { s.packet with len := 1, cmd := cmdError }.write 0 [error]
  return { s with packet }.sendResponse

def parseRequest (s : Hid) (answer : Answer) : Option (Bool × Hid) :=
  if s.packet.cmd = cmdPing then some (true, s.sendResponse)
  else if s.packet.cmd = cmdMsg then
    if s.lock ∧ s.packet.cid ≠ s.lockCid then some (false, s)
    else do
      let packet ← s.packet.write 0 answer.response
      if answer.response = [] then
        return (false, { s with packet })
      return (true, { s with packet := { packet with len := answer.response.length } }.sendResponse)
  else if s.packet.cmd = cmdLock then
    if s.packet.len ≠ 1 then some (false, s)
    else if s.packet.payload.headD 0 = 0 then
      some (true, { s with lock := false, lockCid := [0, 0, 0, 0] })
    else some (true, { s with lock := true, lockCid := s.packet.cid })
  else if s.packet.cmd = cmdInit then
    if s.packet.len ≠ 8 ∨ s.packet.cid ≠ broadcastCid ∨ s.lock then some (false, s)
    else do
      let packet ← { s.packet with len := 17 }.write 8 (answer.random.take 4)
      let packet ← packet.write 12 [2, 1, 0, 1, 1]
      return (true, { s with packet }.sendResponse)
  else if s.packet.cmd = cmdWink then
    if s.packet.len ≠ 0 then some (false, s)
    else some (true, s.sendResponse)
  else some (false, s)

def execute (s : Hid) (answer : Answer) : Option Hid := do
  let message : Message := ⟨s.packet.cid, s.packet.cmd, s.packet.payload.take s.packet.len⟩
  let (done, s) ← { s with parsed := s.parsed ++ [message] }.parseRequest answer
  if done then some s else s.sendError errInvalidCmd

/-- `u2f_hid_worker`, for an init packet of at least seven bytes. -/
def initPacket (s : Hid) (len : Nat) : Option (Bool × Hid) :=
  let announced := (s.packetBuf.getD 5 0).toNat * 256 + (s.packetBuf.getD 6 0).toNat
  let s := { s with packet := { s.packet with len := announced } }
  if maxPayloadLen < announced then some (false, { s with reqLenLeft := 0 })
  else do
    let reqLenLeft := announced - (len - 7)
    let lenCur := min announced (len - 7)
    let packet := { s.packet with cid := s.packetBuf.take 4, cmd := s.packetBuf.getD 4 0 }
    let packet ← packet.write 0 ((s.packetBuf.drop 7).take lenCur)
    return (true, { s with reqLenLeft, packet, seqIdLast := 0, reqBufPtr := lenCur })

/-- `u2f_hid_worker`, for a continuation packet of at least five bytes. -/
def contPacket (s : Hid) (len : Nat) : Option Hid :=
  if s.reqLenLeft = 0 then some s
  else if s.packetBuf.take 4 = s.packet.cid ∧ (s.packetBuf.getD 4 0).toNat = s.seqIdLast then do
    let lenCur := min s.reqLenLeft (len - 5)
    let packet ← s.packet.write s.reqBufPtr ((s.packetBuf.drop 5).take lenCur)
    return { s with
      packet
      reqLenLeft := s.reqLenLeft - lenCur
      reqBufPtr := s.reqBufPtr + lenCur
      seqIdLast := (s.seqIdLast + 1) % 256 }
  else some s

/-- `U2F_HID_TYPE_MASK` and `U2F_HID_TYPE_INIT` -/
def isInit (data : Bytes) : Bool := decide (0x80 ≤ data.getD 4 0)

/-- `u2f_hid_worker`, for a request: at most `HID_U2F_PACKET_LEN` bytes are read over the packet that
was there before. -/
def request (s : Hid) (received : Bytes) (answer : Answer) : Option Hid :=
  let data := received.take packetLen
  let s := { s with packetBuf := data ++ s.packetBuf.drop data.length }
  if data.length = 0 then some s
  else if isInit s.packetBuf then
    if data.length < 7 then some { s with reqLenLeft := 0 }
    else do
      let (accepted, s) ← s.initPacket data.length
      if accepted ∧ s.reqLenLeft = 0 then s.execute answer else some s
  else if data.length < 5 then some { s with reqLenLeft := 0 }
  else do
    let s ← s.contPacket data.length
    if s.reqLenLeft = 0 then s.execute answer else some s

end Hid

/-- The worker receives a packet, or the lock is released. -/
inductive Event where
  | request (received : Bytes) (answer : Answer)
  | unlock

def machine : Machine Hid Event where
  step s
    | .request received answer => s.request received answer
    | .unlock => some { s with lock := false, lockCid := [0, 0, 0, 0] }

variable {s s' : Hid} {received : Bytes} {answer : Answer} {packet : Packet}

/-- A message of which some bytes were delivered, by `seq` continuation packets. -/
structure Assembly where
  cid : Bytes
  cmd : UInt8
  announced : Nat
  seq : Nat
  data : Bytes

/-- A message is complete with its last byte. -/
def Assembly.deliver (a : Assembly) : Option Assembly × Option Message :=
  if a.data.length = a.announced then (none, some ⟨a.cid, a.cmd, a.data⟩) else (some a, none)

/-- What an init packet delivers of the message that it announces. -/
def Assembly.opened (data : Bytes) : Assembly :=
  let announced := (data.getD 5 0).toNat * 256 + (data.getD 6 0).toNat
  ⟨data.take 4, data.getD 4 0, announced, 0, (data.drop 7).take announced⟩

/-- What a continuation packet adds to the message. -/
def Assembly.continued (a : Assembly) (data : Bytes) : Assembly :=
  { a with seq := a.seq + 1, data := a.data ++ (data.drop 5).take (a.announced - a.data.length) }

/-- What a packet makes of the message that is being delivered. -/
def reassemble (pending : Option Assembly) (data : Bytes) : Option Assembly × Option Message :=
  if data.length < 5 then (pending, none)
  else if Hid.isInit data then
    if data.length < 7 then (none, none) else (Assembly.opened data).deliver
  else match pending with
    | none => (none, none)
    | some a =>
      if data.take 4 = a.cid ∧ (data.getD 4 0).toNat = a.seq then (a.continued data).deliver
      else (some a, none)

def Event.packet? : Event → Option Bytes
  | .request received _ => some (received.take packetLen)
  | .unlock => none

def messages : Option Assembly → List Bytes → List Message
  | _, [] => []
  | pending, data :: packets =>
    let (pending, message) := reassemble pending data
    message.toList ++ messages pending packets

/-- A packet continues a message that is not complete, and an answer fits the payload buffer. -/
def Proper (s : Hid) : Event → Prop
  | .request received answer =>
    (5 ≤ (received.take packetLen).length → Hid.isInit (received.take packetLen) = false →
      0 < s.reqLenLeft) ∧ answer.response.length ≤ maxPayloadLen
  | .unlock => True

instance decidableProper (s : Hid) : (ev : Event) → Decidable (Proper s ev)
  | .request received answer => inferInstanceAs (Decidable
      ((5 ≤ (received.take packetLen).length → Hid.isInit (received.take packetLen) = false →
        0 < s.reqLenLeft) ∧ answer.response.length ≤ maxPayloadLen))
  | .unlock => isTrue trivial

/-- The payload buffer holds what was delivered of the message. -/
structure Assembles (s : Hid) (a : Assembly) : Prop where
  cid : s.packet.cid = a.cid
  cmd : s.packet.cmd = a.cmd
  len : s.packet.len = a.announced
  bound : a.announced ≤ maxPayloadLen
  left : a.data.length + s.reqLenLeft = a.announced
  ptr : s.reqBufPtr = a.data.length
  data : s.packet.payload.take a.data.length = a.data
  seq : s.seqIdLast = a.seq

/-- The worker and the message that is being delivered. -/
structure Tracks (s : Hid) (pending : Option Assembly) : Prop where
  payload : s.packet.payload.length = maxPayloadLen
  pending : 0 < s.reqLenLeft → ∃ a, pending = some a ∧ Assembles s a

theorem Packet.write_of_le (packet : Packet) {offset : Nat} {data : Bytes}
    (h : offset + data.length ≤ maxPayloadLen) :
    packet.write offset data = some { packet with
      payload := packet.payload.take offset ++ data ++
        packet.payload.drop (offset + data.length) } := if_pos h

theorem length_overwritten {payload data : Bytes} {offset : Nat}
    (h : offset + data.length ≤ payload.length) :
    (payload.take offset ++ data ++ payload.drop (offset + data.length)).length =
      payload.length := by
  rw [length_append, length_append, length_take, length_drop]
  omega

theorem Packet.write_length (packet : Packet) {offset : Nat} {data : Bytes}
    (hpayload : packet.payload.length = maxPayloadLen) (h : offset + data.length ≤ maxPayloadLen) :
    ∃ payload, packet.write offset data = some { packet with payload := payload } ∧
      payload.length = maxPayloadLen :=
  ⟨_, packet.write_of_le h, (length_overwritten (hpayload ▸ h)).trans hpayload⟩

theorem take_overwritten {payload data : Bytes} {offset : Nat}
    (h : offset + data.length ≤ payload.length) :
    (payload.take offset ++ data ++ payload.drop (offset + data.length)).take
      (offset + data.length) = payload.take offset ++ data := by
  refine take_left' ?_
  rw [length_append, length_take]
  omega

/-- Executing a request changes neither what is left of a message nor the size of the buffer. -/
structure Executed (s s' : Hid) : Prop where
  parsed : s'.parsed = s.parsed
  reqLenLeft : s'.reqLenLeft = s.reqLenLeft
  payload : s'.packet.payload.length = maxPayloadLen

theorem parseRequest_executed (hpayload : s.packet.payload.length = maxPayloadLen)
    (hanswer : answer.response.length ≤ maxPayloadLen) :
    ∃ done s', s.parseRequest answer = some (done, s') ∧ Executed s s' := by
  have hsame : Executed s s := ⟨rfl, rfl, hpayload⟩
  have hmax : maxPayloadLen = 7609 := rfl
  rw [Hid.parseRequest]
  split
  · exact ⟨_, _, rfl, rfl, rfl, hpayload⟩
  split
  · split
    · exact ⟨_, _, rfl, hsame⟩
    · obtain ⟨payload, hwrite, hlength⟩ := s.packet.write_length hpayload
        ((Nat.zero_add _).trans_le hanswer)
      rw [hwrite]
      simp only [bind_eq_bind, bind_some]
      split <;> exact ⟨_, _, rfl, rfl, rfl, hlength⟩
  split
  · split
    · exact ⟨_, _, rfl, hsame⟩
    · split <;> exact ⟨_, _, rfl, rfl, rfl, hpayload⟩
  split
  · split
    · exact ⟨_, _, rfl, hsame⟩
    · have hrandom : 8 + (answer.random.take 4).length ≤ maxPayloadLen := by
        rw [length_take]
        omega
      obtain ⟨payload, hwrite, hlength⟩ := Packet.write_length { s.packet with len := 17 }
        hpayload hrandom
      have hversion : 12 + ([2, 1, 0, 1, 1] : Bytes).length ≤ maxPayloadLen := by decide
      obtain ⟨payload', hwrite', hlength'⟩ := Packet.write_length
        { s.packet with len := 17, payload := payload } hlength hversion
      rw [hwrite]
      simp only [bind_eq_bind, bind_some]
      rw [hwrite']
      exact ⟨_, _, rfl, rfl, rfl, hlength'⟩
  split
  · split
    · exact ⟨_, _, rfl, hsame⟩
    · exact ⟨_, _, rfl, rfl, rfl, hpayload⟩
  · exact ⟨_, _, rfl, hsame⟩

theorem execute_executed (hpayload : s.packet.payload.length = maxPayloadLen)
    (hanswer : answer.response.length ≤ maxPayloadLen) :
    ∃ s', s.execute answer = some s' ∧ s'.parsed =
        s.parsed ++ [⟨s.packet.cid, s.packet.cmd, s.packet.payload.take s.packet.len⟩] ∧
      s'.reqLenLeft = s.reqLenLeft ∧ s'.packet.payload.length = maxPayloadLen := by
  obtain ⟨done, s', hparse, hexecuted⟩ := parseRequest_executed (s := { s with
    parsed := s.parsed ++ [⟨s.packet.cid, s.packet.cmd, s.packet.payload.take s.packet.len⟩] })
    hpayload hanswer
  rw [Hid.execute, hparse]
  simp only [bind_eq_bind, bind_some]
  cases done with
  | true => exact ⟨s', rfl, hexecuted.parsed, hexecuted.reqLenLeft, hexecuted.payload⟩
  | false =>
    have herror : 0 + ([errInvalidCmd] : Bytes).length ≤ maxPayloadLen := by decide
    obtain ⟨payload, hwrite, hlength⟩ := Packet.write_length
      { s'.packet with len := 1, cmd := cmdError } hexecuted.payload herror
    rw [if_neg Bool.false_ne_true, Hid.sendError, hwrite]
    exact ⟨_, rfl, hexecuted.parsed, hexecuted.reqLenLeft, hlength⟩

theorem Assembles.deliver {a : Assembly} (h : Assembles s a)
    (hpayload : s.packet.payload.length = maxPayloadLen)
    (hanswer : answer.response.length ≤ maxPayloadLen) :
    ∃ s', (if s.reqLenLeft = 0 then s.execute answer else some s) = some s' ∧
      s'.parsed = s.parsed ++ a.deliver.2.toList ∧ Tracks s' a.deliver.1 := by
  have hleft := h.left
  rw [Assembly.deliver]
  by_cases hzero : s.reqLenLeft = 0
  · obtain ⟨s', hexecute, hparsed, hreq, hlength⟩ := execute_executed hpayload hanswer
    have hall : a.data.length = a.announced := by omega
    rw [if_pos hzero, if_pos hall]
    refine ⟨s', hexecute, ?_, hlength, fun hpos => absurd hpos (by omega)⟩
    rw [hparsed, h.cid, h.cmd, h.len, ← hall, h.data]
    rfl
  · have hnot : ¬ a.data.length = a.announced := by omega
    rw [if_neg hzero, if_neg hnot]
    exact ⟨s, rfl, (append_nil _).symm, hpayload, fun _ => ⟨a, rfl, h⟩⟩

/-- What was received stands at the front of the packet buffer. -/
structure Received (s : Hid) (data : Bytes) : Prop where
  getD : ∀ i, i < data.length → s.packetBuf.getD i 0 = data.getD i 0
  take : ∀ offset n, offset + n ≤ data.length →
    (s.packetBuf.drop offset).take n = (data.drop offset).take n

theorem Received.of_append {data rest : Bytes} (h : s.packetBuf = data ++ rest) :
    Received s data where
  getD i hi := by rw [h, getD_append _ _ _ _ hi]
  take offset n hn := by
    have hlength : n ≤ (data.drop offset).length := by
      rw [length_drop]
      omega
    rw [h, drop_append_of_le_length (by omega), take_append_of_le_length hlength]

section Received
variable {data : Bytes} (hdata : Received s data)
include hdata

theorem Received.isInit (hlen : 5 ≤ data.length) : Hid.isInit s.packetBuf = Hid.isInit data := by
  rw [Hid.isInit, Hid.isInit, hdata.getD 4 hlen]

theorem Received.announced (hlen : 7 ≤ data.length) :
    (s.packetBuf.getD 5 0).toNat * 256 + (s.packetBuf.getD 6 0).toNat =
      (Assembly.opened data).announced := by
  rw [hdata.getD 5 (by omega), hdata.getD 6 (by omega)]
  rfl

theorem Received.initPacket_dropped (hlen : 7 ≤ data.length)
    (h : maxPayloadLen < (Assembly.opened data).announced) :
    ∃ s', s.initPacket data.length = some (false, s') ∧ s'.parsed = s.parsed ∧
      s'.reqLenLeft = 0 ∧ s'.packet.payload = s.packet.payload := by
  have hannounced := hdata.announced hlen
  refine ⟨_, (?_ : _ = some (false, { s with
    reqLenLeft := 0, packet := { s.packet with len := (Assembly.opened data).announced } })),
    rfl, rfl, rfl⟩
  rw [Hid.initPacket, hannounced]
  exact if_pos h

theorem Received.initPacket_assembles (hlen : 7 ≤ data.length)
    (hpayload : s.packet.payload.length = maxPayloadLen)
    (h : (Assembly.opened data).announced ≤ maxPayloadLen) :
    ∃ s', s.initPacket data.length = some (true, s') ∧ s'.parsed = s.parsed ∧
      Assembles s' (Assembly.opened data) ∧ s'.packet.payload.length = maxPayloadLen := by
  have hannounced := hdata.announced hlen
  have hcid : s.packetBuf.take 4 = data.take 4 := hdata.take 0 4 (by omega)
  have hcmd : s.packetBuf.getD 4 0 = data.getD 4 0 := hdata.getD 4 (by omega)
  have hopened : (Assembly.opened data).data =
      (data.drop 7).take (Assembly.opened data).announced := rfl
  set a := Assembly.opened data with ha
  have hcur : a.data.length = min a.announced (data.length - 7) := by
    rw [hopened, length_take, length_drop]
  have hbytes : (s.packetBuf.drop 7).take (min a.announced (data.length - 7)) = a.data := by
    rw [hdata.take 7 _ (by omega), hopened, take_eq_take_iff, length_drop]
    omega
  have hwrite : 0 + a.data.length ≤ maxPayloadLen := by omega
  have hinside : 0 + a.data.length ≤ s.packet.payload.length := hpayload ▸ hwrite
  simp only [Hid.initPacket, hannounced, hcid, hcmd, hbytes, Packet.write_of_le _ hwrite,
    if_neg (Nat.not_lt.2 h), bind_eq_bind, bind_some]
  refine ⟨_, rfl, rfl, ⟨rfl, rfl, rfl, h, ?_, hcur.symm, ?_, rfl⟩, ?_⟩
  · show a.data.length + (a.announced - (data.length - 7)) = a.announced
    omega
  · have hzero : a.data.length = 0 + a.data.length := (Nat.zero_add _).symm
    exact (congrArg (List.take · _) hzero).trans (take_overwritten hinside)
  · exact (length_overwritten hinside).trans hpayload

theorem Received.contPacket_assembles {a : Assembly} (hlen : 5 ≤ data.length)
    (hinit : Hid.isInit data = false) (hpayload : s.packet.payload.length = maxPayloadLen)
    (h : Assembles s a) (hleft : 0 < s.reqLenLeft) :
    ∃ s', s.contPacket data.length = some s' ∧ s'.parsed = s.parsed ∧
      s'.packet.payload.length = maxPayloadLen ∧
      if data.take 4 = a.cid ∧ (data.getD 4 0).toNat = a.seq then Assembles s' (a.continued data)
      else Assembles s' a ∧ 0 < s'.reqLenLeft := by
  have hcid : s.packetBuf.take 4 = data.take 4 := hdata.take 0 4 (by omega)
  have hcmd : s.packetBuf.getD 4 0 = data.getD 4 0 := hdata.getD 4 (by omega)
  have hcond : (s.packetBuf.take 4 = s.packet.cid ∧ (s.packetBuf.getD 4 0).toNat = s.seqIdLast) ↔
      (data.take 4 = a.cid ∧ (data.getD 4 0).toNat = a.seq) := by
    rw [hcid, hcmd, h.cid, h.seq]
  rw [Hid.contPacket, if_neg (by omega)]
  by_cases hmatch : data.take 4 = a.cid ∧ (data.getD 4 0).toNat = a.seq
  · rw [if_pos (hcond.2 hmatch)]
    simp only [if_pos hmatch]
    have hleft' := h.left
    have hbound := h.bound
    have hptr := h.ptr
    set new := (data.drop 5).take (a.announced - a.data.length) with hnew
    have hcur : new.length = min s.reqLenLeft (data.length - 5) := by
      rw [hnew, length_take, length_drop]
      omega
    have hbytes : (s.packetBuf.drop 5).take (min s.reqLenLeft (data.length - 5)) = new := by
      rw [hdata.take 5 _ (by omega), hnew, take_eq_take_iff, length_drop]
      omega
    have hwrite : s.reqBufPtr + new.length ≤ maxPayloadLen := by omega
    have hinside : s.reqBufPtr + new.length ≤ s.packet.payload.length := hpayload ▸ hwrite
    rw [hbytes, Packet.write_of_le _ hwrite]
    simp only [bind_eq_bind, bind_some]
    have hlength : (a.continued data).data.length = a.data.length + new.length :=
      length_append
    refine ⟨_, rfl, rfl, (length_overwritten hinside).trans hpayload,
      ⟨h.cid, h.cmd, h.len, hbound, ?_, ?_, ?_, ?_⟩⟩
    · show (a.continued data).data.length + (s.reqLenLeft - min s.reqLenLeft (data.length - 5)) =
        a.announced
      omega
    · show s.reqBufPtr + min s.reqLenLeft (data.length - 5) = (a.continued data).data.length
      omega
    · show (_ : Bytes).take (a.continued data).data.length = a.data ++ new
      rw [hlength, ← hptr, take_overwritten hinside, hptr, h.data]
    · show (s.seqIdLast + 1) % 256 = a.seq + 1
      have hseq := h.seq
      have hsmall : ¬ 0x80 ≤ data.getD 4 0 := of_decide_eq_false hinit
      have hlt : (data.getD 4 0).toNat < 0x80 := by
        rw [UInt8.le_iff_toNat_le, Nat.not_le] at hsmall
        exact hsmall
      rw [hseq, ← hmatch.2, Nat.mod_eq_of_lt (by omega)]
  · rw [if_neg fun hc => hmatch (hcond.1 hc)]
    simp only [if_neg hmatch]
    exact ⟨s, rfl, rfl, hpayload, h, hleft⟩

end Received

theorem Tracks.idle (s : Hid) (hpayload : s.packet.payload.length = maxPayloadLen)
    (hzero : s.reqLenLeft = 0) (pending : Option Assembly) : Tracks s pending :=
  ⟨hpayload, fun hpos => absurd hpos (by omega)⟩

/-- A packet is served: the worker executes what it completes and nothing else. -/
theorem request_tracks {pending : Option Assembly} (h : Tracks s pending)
    (hproper : Proper s (.request received answer)) :
    ∃ s', s.request received answer = some s' ∧
      s'.parsed = s.parsed ++ (reassemble pending (received.take packetLen)).2.toList ∧
      Tracks s' (reassemble pending (received.take packetLen)).1 := by
  obtain ⟨hcontinues, hanswer⟩ := hproper
  set data := received.take packetLen with hdata
  set r : Hid := { s with packetBuf := data ++ s.packetBuf.drop data.length } with hr
  have hreceived : Received r data := Received.of_append rfl
  rw [Hid.request, reassemble.eq_def]
  simp only [← hdata, ← hr]
  by_cases hempty : data.length = 0
  · rw [if_pos hempty, if_pos (by omega)]
    exact ⟨r, rfl, (append_nil _).symm, h.payload, fun hpos =>
      let ⟨a, ha, hassembles⟩ := h.pending hpos
      ⟨a, ha, ⟨hassembles.cid, hassembles.cmd, hassembles.len, hassembles.bound, hassembles.left,
        hassembles.ptr, hassembles.data, hassembles.seq⟩⟩⟩
  rw [if_neg hempty]
  -- too short for a header: what was pending is dropped
  by_cases hshort : data.length < 5
  · rw [if_pos hshort, if_pos hshort, if_pos (by omega : data.length < 7)]
    have hlast : ∀ s' : Hid, s' = { r with reqLenLeft := 0 } →
        s'.parsed = s.parsed ++ (none : Option Message).toList ∧ Tracks s' pending := by
      rintro s' rfl
      exact ⟨(append_nil _).symm, Tracks.idle { r with reqLenLeft := 0 } h.payload rfl _⟩
    split <;> exact ⟨_, rfl, hlast _ rfl⟩
  rw [if_neg hshort, if_neg hshort, hreceived.isInit (by omega)]
  cases hinit : Hid.isInit data with
  | true =>
    rw [if_pos rfl, if_pos rfl]
    by_cases hseven : data.length < 7
    · rw [if_pos hseven, if_pos hseven]
      exact ⟨_, rfl, (append_nil _).symm, Tracks.idle { r with reqLenLeft := 0 } h.payload rfl _⟩
    rw [if_neg hseven, if_neg hseven]
    -- a length that does not fit the buffer is not assembled
    by_cases hmax : maxPayloadLen < (Assembly.opened data).announced
    · obtain ⟨s', hstep, hparsed, hzero, hpayload⟩ :=
        hreceived.initPacket_dropped (by omega) hmax
      have hpart : ¬ (Assembly.opened data).data.length = (Assembly.opened data).announced := by
        have hlen : (Assembly.opened data).data.length ≤ data.length := by
          rw [Assembly.opened, length_take, length_drop]
          omega
        have hpacket : data.length ≤ packetLen := length_take_le ..
        have hsizes : packetLen ≤ maxPayloadLen := by decide
        omega
      rw [hstep, Assembly.deliver, if_neg hpart]
      exact ⟨s', rfl, hparsed.trans (append_nil _).symm,
        Tracks.idle s' ((congrArg List.length hpayload).trans h.payload) hzero _⟩
    · obtain ⟨s', hstep, hparsed, hassembles, hpayload⟩ :=
        hreceived.initPacket_assembles (by omega) h.payload (Nat.not_lt.1 hmax)
      obtain ⟨t, hexecute, hparsed', htracks⟩ := hassembles.deliver hpayload hanswer
      rw [hstep]
      refine ⟨t, ?_, hparsed' ▸ hparsed ▸ rfl, htracks⟩
      rw [← hexecute]
      simp only [bind_eq_bind, bind_some, true_and]
  | false =>
    rw [if_neg Bool.false_ne_true, if_neg Bool.false_ne_true]
    have hleft : 0 < s.reqLenLeft := hcontinues (by omega) hinit
    obtain ⟨a, rfl, hassembles⟩ := h.pending hleft
    have hassembles' : Assembles r a := ⟨hassembles.cid, hassembles.cmd, hassembles.len,
      hassembles.bound, hassembles.left, hassembles.ptr, hassembles.data, hassembles.seq⟩
    obtain ⟨s', hstep, hparsed, hpayload, hnext⟩ :=
      hreceived.contPacket_assembles (by omega) hinit h.payload hassembles' hleft
    rw [hstep]
    simp only [bind_eq_bind, bind_some]
    -- only the packet with the next number, on the same channel, is taken
    by_cases hmatch : data.take 4 = a.cid ∧ (data.getD 4 0).toNat = a.seq
    · rw [if_pos hmatch] at hnext ⊢
      obtain ⟨t, hexecute, hparsed', htracks⟩ := hnext.deliver hpayload hanswer
      exact ⟨t, hexecute, hparsed' ▸ hparsed ▸ rfl, htracks⟩
    · rw [if_neg hmatch] at hnext ⊢
      rw [if_neg (by omega)]
      exact ⟨s', rfl, hparsed.trans (append_nil _).symm, hpayload, fun _ => ⟨a, rfl, hnext.1⟩⟩

theorem step_tracks {pending : Option Assembly} {ev : Event} (h : Tracks s pending)
    (hproper : Proper s ev) :
    ∃ s' pending', machine.step s ev = some s' ∧ Tracks s' pending' ∧
      ∀ packets, s'.parsed ++ messages pending' packets =
        s.parsed ++ messages pending (ev.packet?.toList ++ packets) := by
  cases ev with
  | request received answer =>
    obtain ⟨s', hstep, hparsed, htracks⟩ := request_tracks h hproper
    refine ⟨s', _, hstep, htracks, fun packets => ?_⟩
    rw [hparsed, append_assoc]
    rfl
  | unlock =>
    refine ⟨_, pending, rfl, ⟨h.payload, fun hpos => ?_⟩, fun _ => rfl⟩
    obtain ⟨a, ha, hassembles⟩ := h.pending hpos
    exact ⟨a, ha, ⟨hassembles.cid, hassembles.cmd, hassembles.len, hassembles.bound,
      hassembles.left, hassembles.ptr, hassembles.data, hassembles.seq⟩⟩

theorem run_tracks {pending : Option Assembly} {evs : List Event} (h : Tracks s pending)
    (hproper : machine.Meets Proper s evs) :
    ∃ t, machine.run s evs = some t ∧
      t.parsed = s.parsed ++ messages pending (evs.filterMap Event.packet?) := by
  induction evs generalizing s pending with
  | nil => exact ⟨s, rfl, (append_nil _).symm⟩
  | cons ev evs ih =>
    obtain ⟨s', pending', hstep, htracks, hmessages⟩ := step_tracks h hproper.1
    obtain ⟨t, hrun, hparsed⟩ := ih htracks ((machine.meets_cons_of_step hstep).1 hproper).2
    refine ⟨t, machine.run_cons_eq_some.2 ⟨s', hstep, hrun⟩, ?_⟩
    rw [hparsed, hmessages]
    cases ev <;> rfl

/-- From a fresh start, no write leaves the payload buffer, and what the worker executes is the
messages of the packets. -/
theorem parsed_eq_messages (packetBuf : Bytes) (evs : List Event)
    (hproper : machine.Meets Proper (Hid.start packetBuf) evs) :
    ∃ t, machine.run (Hid.start packetBuf) evs = some t ∧
      t.parsed = messages none (evs.filterMap Event.packet?) :=
  run_tracks (Tracks.idle _ length_replicate rfl _) hproper

/-- A message in two packets, with a packet of another channel between them. -/
def interleaved : List Event :=
  [.request ([1, 2, 3, 4, 0x81, 0, 59] ++ List.replicate 57 7) ⟨[], []⟩,
    .request [9, 9, 9, 9, 0, 5, 5] ⟨[], []⟩, .unlock,
    .request [1, 2, 3, 4, 0, 8, 9] ⟨[], []⟩]

theorem interleaved_parsed : ∃ t, machine.run (Hid.start []) interleaved = some t ∧
      t.parsed = messages none (interleaved.filterMap Event.packet?) :=
  parsed_eq_messages [] interleaved (by decide)

/-- A message and a packet that continues it once more. -/
def continuedTwice : List Event :=
  [.request [1, 2, 3, 4, 0x81, 0, 1, 42] ⟨[], []⟩, .request [1, 2, 3, 4, 0, 7] ⟨[], []⟩]

/-- A packet that continues a complete message has it executed again. -/
theorem continuedTwice_parsed : (machine.run (Hid.start []) continuedTwice).map Hid.parsed =
        some [⟨[1, 2, 3, 4], 0x81, [42]⟩, ⟨[1, 2, 3, 4], 0x81, [42]⟩] ∧
      messages none (continuedTwice.filterMap Event.packet?) = [⟨[1, 2, 3, 4], 0x81, [42]⟩] := by
  decide

end NikitaFirmware.U2f
