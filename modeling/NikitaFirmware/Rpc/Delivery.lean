import NikitaFirmware.Rpc.Framing
import NikitaFirmware.Rpc.Termination

/-!
# The message decoder

`pb_decode_ex` of the vendored nanopb, as a decoder that reads from the stream of a session. A
call is given the `bytes_left` of its stream, and passes on what it returns together with the
`bytes_left` it leaves; a substream is a call with a `bytes_left` of its own. The descriptor of
the messages is a parameter. Plain and oneof fields are decoded; repeated fields, callback
fields and extensions are left out.
-/

namespace NikitaFirmware.Rpc.Nanopb
open Foundations List

inductive Value
  | varint (value : UInt64)
  | bytes (data : Bytes)
  | submessage
  deriving DecidableEq

/-- What has been stored of a message: each value with the tags that lead to it, the innermost
first. -/
abbrev Message := List (List Nat × Value)

inductive WireType
  | varint
  | fixed64
  | string
  | fixed32
  | invalid
  deriving DecidableEq

def WireType.ofTag (temp : UInt32) : WireType :=
  match (temp &&& 7).toNat with
  | 0 => .varint
  | 1 => .fixed64
  | 2 => .string
  | 5 => .fixed32
  | _ => .invalid

/-- The types of the fields, with the size of what they are stored in. -/
inductive FieldType
  | bool
  | uvarint (dataSize : Nat)
  | bytes (dataSize : Nat)
  | submessage

abbrev Descriptor := List Nat → Option FieldType

/-- `sizeof(pb_bytes_array_t)` without its bytes. -/
def bytesHeader : Nat := 2

def pbSizeMax : Nat := 0xFFFF

section Streams

variable {M α : Type}

/-- What is done with the result of a call, `none` where it returned false. -/
abbrev Cont (M α : Type) := Option α → Nat → Decode M

def pb_read (count left : Nat) (k : Cont M Bytes) : Decode M :=
  match count with
  | 0 => k (some []) left
  | n + 1 =>
    if left < n + 1 then k none left
    else .read n (fun chunk => k (some chunk) (left - (n + 1))) (k none 0) (k none left)

/-- `pb_read` without a buffer, which skips 16 bytes at a time. -/
def pb_skip (fuel count left : Nat) (k : Cont M Unit) : Decode M :=
  match fuel with
  | 0 => k (some ()) left
  | fuel + 1 =>
    if count > 16 then
      pb_read 16 left fun
        | some _, left => pb_skip fuel (count - 16) left k
        | none, left => k none left
    else pb_read count left fun chunk left => k (chunk.map fun _ => ()) left

def pb_readbyte (left : Nat) (k : Cont M UInt8) : Decode M :=
  match left with
  | 0 => k none 0
  | left + 1 =>
    .read 0 (fun chunk => k (some (chunk.headD 0)) left) (k none 0) (k none (left + 1))

def varint32Rest (fuel : Nat) (bitpos : Nat) (result : UInt32) (left : Nat) (k : Cont M UInt32) :
    Decode M :=
  match fuel with
  | 0 => k none left
  | fuel + 1 =>
    let more (byte : UInt8) (result : UInt32) (left : Nat) : Decode M :=
      if byte &&& 0x80 ≠ 0 then varint32Rest fuel (bitpos + 7) result left k
      else k (some result) left
    pb_readbyte left fun
      | none, left => k none left
      | some byte, left =>
        if bitpos ≥ 32 then
          if bitpos ≥ 64 ∨ ¬ (byte &&& 0x7F = 0 ∨
              (result >>> 31 ≠ 0 ∧ byte = if bitpos < 63 then 0xFF else 0x01)) then k none left
          else more byte result left
        else if bitpos = 28 then
          if byte &&& 0x70 ≠ 0 ∧ byte &&& 0x78 ≠ 0x78 then k none left
          else more byte (result ||| (byte &&& 0x0F).toUInt32 <<< 28) left
        else more byte (result ||| (byte &&& 0x7F).toUInt32 <<< UInt32.ofNat bitpos) left

/-- `pb_decode_varint32_eof`; the flag says that there was no first byte since the stream has
ended. -/
def pb_decode_varint32_eof (left : Nat) (k : Option UInt32 → Bool → Nat → Decode M) : Decode M :=
  pb_readbyte left fun
    | none, left => k none (left = 0) left
    | some byte, left =>
      if byte &&& 0x80 = 0 then k (some byte.toUInt32) false left
      else varint32Rest 10 7 (byte &&& 0x7F).toUInt32 left fun result left => k result false left

def pb_decode_varint32 (left : Nat) (k : Cont M UInt32) : Decode M :=
  pb_decode_varint32_eof left fun result _ left => k result left

def pb_decode_varint (fuel : Nat) (bitpos : Nat) (result : UInt64) (left : Nat)
    (k : Cont M UInt64) : Decode M :=
  match fuel with
  | 0 => k none left
  | fuel + 1 =>
    pb_readbyte left fun
      | none, left => k none left
      | some byte, left =>
        if bitpos ≥ 63 ∧ byte &&& 0xFE ≠ 0 then k none left
        else
          let result := result ||| (byte &&& 0x7F).toUInt64 <<< UInt64.ofNat bitpos
          if byte &&& 0x80 ≠ 0 then pb_decode_varint fuel (bitpos + 7) result left k
          else k (some result) left

def pb_skip_varint (fuel left : Nat) (k : Cont M Unit) : Decode M :=
  match fuel with
  | 0 => k none left
  | fuel + 1 =>
    pb_read 1 left fun
      | none, left => k none left
      | some chunk, left =>
        if chunk.headD 0 &&& 0x80 ≠ 0 then pb_skip_varint fuel left k else k (some ()) left

def pb_skip_string (left : Nat) (k : Cont M Unit) : Decode M :=
  pb_decode_varint32 left fun
    | none, left => k none left
    | some length, left => pb_skip (length.toNat + 1) length.toNat left k

def pb_decode_tag (left : Nat) (k : Option (WireType × Nat) → Bool → Nat → Decode M) : Decode M :=
  pb_decode_varint32_eof left fun temp eof left =>
    k (temp.map fun temp => (WireType.ofTag temp, (temp >>> 3).toNat)) eof left

def pb_skip_field (wireType : WireType) (left : Nat) (k : Cont M Unit) : Decode M :=
  match wireType with
  | .varint => pb_skip_varint (left + 1) left k
  | .fixed64 => pb_skip 9 8 left k
  | .string => pb_skip_string left k
  | .fixed32 => pb_skip 5 4 left k
  | .invalid => k none left

/-- `pb_make_string_substream`: the length of the substream, and what is left after it. -/
def pb_make_string_substream (left : Nat) (k : Cont M Nat) : Decode M :=
  pb_decode_varint32 left fun
    | none, left => k none left
    | some size, left =>
      if left < size.toNat then k none left else k (some size.toNat) (left - size.toNat)

def pb_close_string_substream (substream : Nat) (k : Option Unit → Decode M) : Decode M :=
  if substream = 0 then k (some ()) else pb_skip (substream + 1) substream substream fun r _ => k r

end Streams

section Fields

variable {M : Type}

def pb_dec_bool (left : Nat) (k : Cont M Value) : Decode M :=
  pb_decode_varint32 left fun value left =>
    k (value.map fun value => .varint (if value ≠ 0 then 1 else 0)) left

def castTo (dataSize : Nat) (value : UInt64) : Option UInt64 :=
  match dataSize with
  | 8 => some value
  | 4 => some value.toUInt32.toUInt64
  | 2 => some value.toUInt16.toUInt64
  | 1 => some value.toUInt8.toUInt64
  | _ => none

def pb_dec_uvarint (dataSize left : Nat) (k : Cont M Value) : Decode M :=
  pb_decode_varint 10 0 0 left fun
    | none, left => k none left
    | some value, left =>
      if castTo dataSize value = some value then k (some (.varint value)) left else k none left

def pb_dec_bytes (dataSize left : Nat) (k : Cont M Value) : Decode M :=
  pb_decode_varint32 left fun
    | none, left => k none left
    | some size, left =>
      if size.toNat > pbSizeMax ∨ bytesHeader + size.toNat > dataSize then k none left
      else pb_read size.toNat left fun data left => k (data.map .bytes) left

/-- `pb_decode_inner`: the fields up to the end of the stream. Each takes at least one byte, so
that the `bytes_left` of the message are fuel enough. -/
def pb_decode_inner (d : Descriptor) (fuel : Nat) (path : List Nat) (dest : Message) (left : Nat)
    (k : Cont M Message) : Decode M :=
  match fuel with
  | 0 => k (some dest) left
  | fuel + 1 =>
    if left = 0 then k (some dest) left
    else
      let store (tag : Nat) (value : Option Value) (left : Nat) : Decode M :=
        match value with
        | none => k none left
        | some value => pb_decode_inner d fuel path (dest ++ [(tag :: path, value)]) left k
      pb_decode_tag left fun
        | none, eof, left => if eof then k (some dest) left else k none left
        | some (wireType, tag), _, left =>
          if tag = 0 then k none left
          else
            match d (tag :: path) with
            | none =>
              pb_skip_field wireType left fun
                | none, left => k none left
                | some _, left => pb_decode_inner d fuel path dest left k
            | some .bool =>
              if wireType = .varint then pb_dec_bool left (store tag) else k none left
            | some (.uvarint dataSize) =>
              if wireType = .varint then pb_dec_uvarint dataSize left (store tag) else k none left
            | some (.bytes dataSize) =>
              if wireType = .string then pb_dec_bytes dataSize left (store tag) else k none left
            | some .submessage =>
              if wireType = .string then
                pb_make_string_substream left fun
                  | none, left => k none left
                  | some substream, left =>
                    pb_decode_inner d fuel (tag :: path)
                      (dest ++ [(tag :: path, .submessage)]) substream fun result substream =>
                        pb_close_string_substream substream fun
                          | none => k none left
                          | some _ =>
                            match result with
                            | none => k none left
                            | some dest => pb_decode_inner d fuel path dest left k
              else k none left

def sizeMax : Nat := 0xFFFFFFFF

def pb_decode_ex (d : Descriptor) : Decode Message :=
  pb_make_string_substream sizeMax fun
    | none, _ => .fail
    | some substream, _ =>
      pb_decode_inner d substream [] [] substream fun result substream =>
        pb_close_string_substream substream fun
          | none => .fail
          | some _ =>
            match result with
            | none => .fail
            | some dest => .ret dest

theorem pb_decode_ex_asks (d : Descriptor) : (pb_decode_ex d).request?.isSome = true := rfl

/-- The decoder of a session, which asks for the length of a message first. -/
def decoder (d : Descriptor) : Request Message := (pb_decode_ex d).request?.get (pb_decode_ex_asks d)

end Fields

/-- The field of the oneof that has been stored last, 0 when there is none. -/
def Message.whichContent (content : Nat → Bool) (m : Message) : Nat :=
  m.foldl (fun which field =>
    match field.1 with
    | [tag] => if content tag then tag else which
    | _ => which) 0

/-- The last value of a plain field, 0 when there is none. -/
def Message.value (tag : Nat) (m : Message) : UInt64 :=
  m.foldl (fun value field =>
    match field with
    | ([t], .varint v) => if t = tag then v else value
    | _ => value) 0

def pb_encode_varint (fuel : Nat) (value : UInt32) : Bytes :=
  match fuel with
  | 0 => []
  | fuel + 1 =>
    if value ≤ 0x7F then [value.toUInt8]
    else (value.toUInt8 ||| 0x80) :: pb_encode_varint fuel (value >>> 7)

end NikitaFirmware.Rpc.Nanopb

namespace NikitaFirmware.Rpc
open Foundations List

variable {M : Type} {p : Protocol M} {s : State M} {ms : List M} {cur rest : Bytes}

/-- The complete report of a broken message. -/
def fullReport (p : Protocol M) : List ErrorEvent :=
  [.decode, .sent (p.encodeEmpty 0 .errorDecode), .closed]

/-- The worker has no more to do with the bytes that were fed. -/
def Settled (s : State M) : Prop :=
  match s.pc with
  | .wait .. => s.stream = []
  | .ended => True
  | _ => False

/-- What a session has made of the bytes it was fed: the messages `ms` have been dispatched in
order, and nothing of `rest` has been handled. -/
structure Framed (p : Protocol M) (s : State M) (ms : List M) (rest : Bytes) : Prop where
  dispatched : Dispatched p s ms rest
  ordered : NoneAfter .errorDecode Event.IsHandled s.log
  /-- Of the report of a broken message, no part is made twice or out of order. -/
  once : (errorTrace s.log).Sublist (fullReport p)
  /-- Only a broken message is reported. -/
  justified : errorTrace s.log ≠ [] → ∃ e, e <+: rest ∧ Broken p e
  /-- When the worker is done, it has stopped at an incomplete message (after which bytes may
  have come too late) or at a broken one, which it has reported; the report lacks nothing if the
  session has not been closed. -/
  settled : Settled s →
    (errorTrace s.log = [] ∧ ∃ early, rest = early ++ s.late ∧ p.decoder.start.Incomplete early) ∨
    ((∃ e, e <+: rest ∧ Broken p e) ∧ .decode ∈ errorTrace s.log ∧
      (s.closer = .idle → errorTrace s.log = fullReport p))

section Reports

variable {callbacks : Callback → Bool} {mutex : Option (Thread × Option Action)}
  {t : List ErrorEvent} {pc : Pc M}

theorem SentTrace.prefix_full (h : SentTrace p callbacks t) :
    t <+: [.decode, .sent (p.encodeEmpty 0 .errorDecode)] := by
  rcases h with rfl | ⟨rfl, -⟩
  · exact prefix_refl _
  · exact ⟨[_], rfl⟩

theorem ClosedTrace.sublist (h : ClosedTrace p callbacks t) : t.Sublist (fullReport p) := by
  obtain ⟨t₀, ht₀, ht⟩ := h
  have hsub : (t₀ ++ [ErrorEvent.closed]).Sublist (fullReport p) :=
    ht₀.prefix_full.sublist.append (List.Sublist.refl [ErrorEvent.closed])
  rcases ht with rfl | ⟨rfl, -⟩
  · exact hsub
  · exact (sublist_append_left _ _).trans hsub

theorem ClosedTrace.decode_mem (h : ClosedTrace p callbacks t) : .decode ∈ t := by
  obtain ⟨t₀, ht₀, ht⟩ := h
  have hmem : .decode ∈ t₀ := by
    rcases ht₀ with rfl | ⟨rfl, -⟩
    · exact mem_cons_self
    · exact mem_cons_self
  rcases ht with rfl | ⟨rfl, -⟩
  · exact mem_append_left _ hmem
  · exact hmem

theorem ClosedTrace.full (h : ClosedTrace p callbacks t) (hsend : callbacks .sendBytes = true)
    (hclosed : callbacks .closed = true) : t = fullReport p := by
  obtain ⟨t₀, rfl | ⟨-, hno⟩, rfl | ⟨-, hno'⟩⟩ := h
  · rfl
  · rw [hclosed] at hno'
    cases hno'
  · rw [hsend] at hno
    cases hno
  · rw [hsend] at hno
    cases hno

theorem Report.sublist (h : Report p mutex callbacks t pc) : t.Sublist (fullReport p) := by
  have hsent : ∀ {t}, SentTrace p callbacks t → t.Sublist (fullReport p) := fun ht =>
    ht.prefix_full.sublist.trans (sublist_append_left _ [ErrorEvent.closed])
  cases pc with
  | errorSend =>
    obtain rfl : t = [] := h
    exact nil_sublist _
  | errorClose => exact hsent h
  | inSection next =>
    cases next with
    | handling m => exact ClosedTrace.sublist h
    | errorClose =>
      rcases h with ⟨-, rfl⟩ | ⟨-, h⟩
      · exact singleton_sublist.mpr mem_cons_self
      · exact hsent h
    | release =>
      rcases h with ⟨-, h⟩ | ⟨-, h⟩
      · exact hsent h
      · exact h.sublist
  | _ => exact ClosedTrace.sublist h

end Reports

theorem Decoding.framed (h : Decoding p s ms cur) (hs : Sound s)
    (hord : NoneAfter .errorDecode Event.IsHandled s.log) :
    Framed p s ms (cur ++ s.stream) where
  dispatched := h.dispatched
  ordered := hord
  once := by
    rw [h.trace]
    exact nil_sublist _
  justified := fun hne => absurd h.trace hne
  settled := by
    intro hset
    refine .inl ⟨h.trace, cur, ?_⟩
    have hst := h.stage
    have hroom := hs.room
    rw [Settled] at hset
    cases hpc : s.pc with
    | wait q received =>
      rw [hpc] at hset hst hroom
      obtain ⟨a, rfl, ha⟩ := hst
      refine ⟨?_, ha.incomplete hroom⟩
      rw [hset, hs.late h.live]
    | ended =>
      rw [hpc] at hst
      exact absurd hst id
    | _ =>
      rw [hpc] at hset
      exact absurd hset id

theorem Cut.framed (h : Cut p s ms cur) (hord : NoneAfter .errorDecode Event.IsHandled s.log) :
    Framed p s ms (cur ++ s.late) where
  dispatched := h.dispatched
  ordered := hord
  once := by
    rw [h.trace]
    exact nil_sublist _
  justified := fun hne => absurd h.trace hne
  settled := fun _ => .inl ⟨h.trace, cur, rfl, h.incomplete⟩

theorem Failed.framed (h : Failed p s ms rest) (hs : Sound s)
    (hord : NoneAfter .errorDecode Event.IsHandled s.log) : Framed p s ms rest where
  dispatched := h.dispatched
  ordered := hord
  once := h.report.sublist
  justified := fun _ => h.broken
  settled := by
    intro hset
    have hr : ClosedTrace p s.callbacks (errorTrace s.log) := by
      have hr := h.report
      rw [Settled] at hset
      cases hpc : s.pc with
      | wait q received =>
        rw [hpc] at hr
        exact hr
      | ended =>
        rw [hpc] at hr
        exact hr
      | _ =>
        rw [hpc] at hset
        exact absurd hset id
    refine .inr ⟨h.broken, hr.decode_mem, fun hidle => ?_⟩
    have hcl := hs.cleared
    rw [Cleared, hidle] at hcl
    exact hr.full hcl.1 hcl.2

theorem Tracked.framed (h : Tracked p s) (hs : Sound s) : ∃ ms rest, Framed p s ms rest := by
  rcases h.mode with ⟨ms, cur, hd⟩ | ⟨ms, cur, hc⟩ | ⟨ms, rest, hf⟩
  · exact ⟨ms, _, hd.framed hs h.ordered⟩
  · exact ⟨ms, _, hc.framed h.ordered⟩
  · exact ⟨ms, rest, hf.framed hs h.ordered⟩

/-- What a session promises to its transport. -/
structure Delivers (p : Protocol M) (s : State M) : Prop where
  framed : ∃ ms rest, Framed p s ms rest
  silent : NoneAfter .closeReturned Event.IsSent s.log
  ends : s.closer = .returned → (machine p).Inevitable Label.Progress (fun s => s.pc = .ended) s

/-- Where the decoder refuses every message that is cut short, the messages delivered and answered
are those that the received bytes spell. A closed session sends nothing more and ends. -/
theorem session_delivers (p : Protocol M) (bufferIsEmpty : Bool) (ls : List Label) (s : State M)
    (hrun : (machine p).run (opened p bufferIsEmpty) ls = some s)
    (hcut : (machine p).Meets (CutRefused p) (opened p bufferIsEmpty) ls) : Delivers p s := by
  have hinv : Sound s ∧ Tracked p s :=
    (machine p).run_invariant_of_meets (I := fun s => Sound s ∧ Tracked p s)
      (fun s l s' h hc hl => ⟨h.1.step hl, h.2.step h.1 hc hl⟩)
      ⟨Sound.opened bufferIsEmpty, Tracked.opened bufferIsEmpty⟩ hcut hrun
  obtain ⟨hs, ht⟩ := hinv
  exact {
    framed := ht.framed hs
    silent := hs.silent
    ends := fun hret => Closed.ends ⟨hs, hret⟩ }

section Ping

/-- The beginning of the main message: its three plain fields, an empty answer and a ping. -/
def pingDescriptor : Nanopb.Descriptor
  | [1] => some (.uvarint 4)
  | [2] => some (.uvarint 1)
  | [3] => some .bool
  | [4] | [5] => some .submessage
  | [1, 5] => some (.bytes 1026)
  | _ => none

def pingStatus : CommandStatus → UInt8
  | .errorDecode => 2
  | .errorNotImplemented => 3

def pingProtocol : Protocol Nanopb.Message where
  decoder := Nanopb.decoder pingDescriptor
  whichContent := Nanopb.Message.whichContent (4 ≤ ·)
  commandId m := (m.value 1).toUInt32
  encodeEmpty id status :=
    let body := (if id = 0 then [] else 0x08 :: Nanopb.pb_encode_varint 5 id) ++
      [0x10, pingStatus status, 0x22, 0x00]
    body.length.toUInt8 :: body
  handlers tag := if tag = 5 then some ⟨true⟩ else none

/-- `rpc_session_close` without any other thread in between. -/
def closing : List Label :=
  [.close, .close, .act, .leave, .close, .act, .leave, .close, .act, .leave, .close]

/-- A ping is answered, a message with a zero tag is reported, and the session is closed. -/
def pingRun : List Label :=
  [.feed [0x02, 0x2A, 0x00, 0x01], .feedFlag] ++ replicate 8 .worker ++
  [.handlerSend [0x02, 0x32, 0x00], .act, .leave, .handlerReturn] ++ replicate 6 .worker ++
  [.feed [0x00], .feedFlag] ++ replicate 3 .worker ++ [.reset true] ++
  [.worker, .act, .leave, .worker, .act, .leave] ++ replicate 3 .worker ++ closing ++
  replicate 3 .worker ++ [.reset true, .worker]

theorem session_delivers_pingRun : ∃ s,
    (machine pingProtocol).run (opened pingProtocol false) pingRun = some s ∧
      handledIn s.log = [[([5], .submessage)]] ∧ errorTrace s.log = fullReport pingProtocol ∧
      Delivers pingProtocol s := by
  have hrun : ((machine pingProtocol).run (opened pingProtocol false) pingRun).map
      (fun s => (handledIn s.log, errorTrace s.log)) =
        some ([[([5], .submessage)]], fullReport pingProtocol) := by
    decide
  obtain ⟨s, hs, hlog⟩ := Option.map_eq_some_iff.mp hrun
  obtain ⟨hhandled, htrace⟩ := Prod.mk.inj hlog
  exact ⟨s, hs, hhandled, htrace, session_delivers pingProtocol false pingRun s hs (by decide)⟩

/-- A ping of which three bytes are missing, cut off by the close. -/
def cutRun : List Label :=
  [.feed [0x05, 0x2A, 0x03], .feedFlag] ++ replicate 8 .worker ++ closing ++
  replicate 4 .worker

theorem cut_incomplete : pingProtocol.decoder.start.Incomplete [0x05, 0x2A, 0x03] :=
  Decode.incomplete_of_answered [[0x05], [0x2A], [0x03]] (by decide)

theorem session_not_always_delivers : ¬ ∀ (ls : List Label) (s : State Nanopb.Message),
    (machine pingProtocol).run (opened pingProtocol false) ls = some s →
      Delivers pingProtocol s := by
  intro hall
  have hrun : ((machine pingProtocol).run (opened pingProtocol false) cutRun).map
      (fun s => (s.fed, handledIn s.log)) =
        some ([0x05, 0x2A, 0x03], [[([5], .submessage)]]) := by
    decide
  obtain ⟨s, hs, hlog⟩ := Option.map_eq_some_iff.mp hrun
  obtain ⟨hfed, hhandled⟩ := Prod.mk.inj hlog
  obtain ⟨ms, rest, h⟩ := (hall cutRun s hs).framed
  have hmessages := h.dispatched.messages
  have hfilter := h.dispatched.handled
  rw [hhandled] at hfilter
  have hincomplete := cut_incomplete
  rw [← hfed] at hincomplete
  -- a message was handled, but the bytes do not begin with one
  generalize s.fed = bs at hmessages hincomplete
  cases hmessages with
  | nil => cases hfilter
  | cons he _ => exact hincomplete _ _ (prefix_append _ _) he trivial

end Ping

end NikitaFirmware.Rpc
