import NikitaFirmware.Foundations.Bytes

/-!
# Reading exactly so many bytes from a connection

A connection delivers its bytes in pieces, ends by closing or with a reset, and refuses
reads above a limit. What `recvExact` returns depends on the bytes alone, not on how they
are cut into pieces.
-/

namespace NikitaFirmware.Bridge
open Foundations List Option

structure Conn where
  /-- What the peer sends, as the socket hands it over. -/
  pieces : List Bytes
  /-- The connection ends with a reset, on which a read raises. -/
  reset : Bool
  /-- The largest buffer a read can allocate. -/
  limit : Nat
  limit_ge : 8 ≤ limit
  deriving DecidableEq

/-- The bytes the peer still sends. -/
def Conn.stream (conn : Conn) : Bytes := conn.pieces.flatten

/-- The first piece that is not empty, cut to `count` bytes, and what follows. -/
def nextPiece (count : Nat) : List Bytes → Bytes × List Bytes
  | [] => ([], [])
  | [] :: pieces => nextPiece count pieces
  | (b :: bs) :: pieces =>
    ((b :: bs).take count,
      if (b :: bs).length ≤ count then pieces else (b :: bs).drop count :: pieces)

def recv (count : Nat) (conn : Conn) : Option (Bytes × Conn) :=
  if conn.limit < count then none
  else if conn.stream = [] ∧ conn.reset then none
  else
    let (chunk, pieces) := nextPiece count conn.pieces
    some (chunk, { conn with pieces := pieces })

/-- The loop of `recv_exact`. Every turn adds a byte or ends it, so `count` turns suffice. -/
def recvLoop (count : Nat) : Nat → Bytes → Conn → Option (Bytes × Conn)
  | 0, data, conn => some (data, conn)
  | turns + 1, data, conn =>
    if data.length < count then
      match recv (count - data.length) conn with
      | none => none
      | some ([], conn) => some (data, conn)
      | some (chunk, conn) => recvLoop count turns (data ++ chunk) conn
    else some (data, conn)

def recvExact (count : Nat) (conn : Conn) : Option (Bytes × Conn) := recvLoop count count [] conn

/-- The connection once `count` of its bytes are gone. -/
structure After (count : Nat) (conn conn' : Conn) : Prop where
  stream : conn'.stream = conn.stream.drop count
  reset : conn'.reset = conn.reset
  limit : conn'.limit = conn.limit

theorem nextPiece_stream (count : Nat) (pieces : List Bytes) :
    (nextPiece count pieces).1 ++ (nextPiece count pieces).2.flatten = pieces.flatten ∧
    (nextPiece count pieces).1.length ≤ count ∧
    (0 < count → (nextPiece count pieces).1 = [] → pieces.flatten = []) := by
  induction pieces with
  | nil => simp [nextPiece]
  | cons piece pieces ih =>
    cases piece with
    | nil => simpa [nextPiece] using ih
    | cons b bs =>
      refine ⟨?_, ?_, fun hpos hnil => ?_⟩
      · rw [nextPiece, flatten_cons]
        dsimp only
        split
        · next hle => rw [take_of_length_le hle]
        · rw [flatten_cons, ← append_assoc, take_append_drop]
      · rw [nextPiece, length_take]
        omega
      · obtain ⟨n, rfl⟩ := Nat.exists_eq_add_of_lt hpos
        simp [nextPiece] at hnil

variable {conn : Conn}

theorem recv_spec {count : Nat} (hlimit : count ≤ conn.limit) :
    (conn.stream = [] ∧ conn.reset = true ∧ recv count conn = none) ∨
    ((conn.stream = [] → conn.reset = false) ∧ ∃ chunk conn', recv count conn = some (chunk, conn') ∧
      chunk ++ conn'.stream = conn.stream ∧ chunk.length ≤ count ∧
      (0 < count → chunk = [] → conn.stream = []) ∧
      conn'.reset = conn.reset ∧ conn'.limit = conn.limit) := by
  obtain ⟨hcat, hlen, hnil⟩ := nextPiece_stream count conn.pieces
  unfold recv
  rw [if_neg (by omega)]
  by_cases hend : conn.stream = [] ∧ conn.reset
  · rw [if_pos hend]
    exact .inl ⟨hend.1, hend.2, rfl⟩
  · rw [if_neg hend]
    refine .inr ⟨?_, _, _, rfl, hcat, hlen, hnil, rfl, rfl⟩
    intro hstream
    by_contra hreset
    exact hend ⟨hstream, by simpa using hreset⟩

/-- With `n` bytes to go, the loop raises where the connection is reset before them, and
otherwise adds the next `n` bytes of the stream, or all that are left. -/
theorem recvLoop_spec (count turns : Nat) (data : Bytes) (conn : Conn) (n : Nat)
    (hn : n = count - data.length) (hturns : n ≤ turns) (hlimit : n ≤ conn.limit) :
    (conn.reset = true ∧ conn.stream.length < n ∧ recvLoop count turns data conn = none) ∨
    ((conn.reset = true → n ≤ conn.stream.length) ∧ ∃ conn',
      recvLoop count turns data conn = some (data ++ conn.stream.take n, conn') ∧
      After n conn conn') := by
  induction turns generalizing data conn n with
  | zero =>
    obtain rfl : n = 0 := by omega
    exact .inr ⟨fun _ => Nat.zero_le _, conn, by simp [recvLoop], ⟨rfl, rfl, rfl⟩⟩
  | succ turns ih =>
    by_cases hmore : data.length < count
    · have hpos : 0 < n := by omega
      simp only [recvLoop, hmore, if_true, ← hn]
      obtain ⟨hstream, hreset, hrecv⟩ | ⟨hclosed, chunk, conn', hrecv, hcat, hlen, hnil, hr, hl⟩ :=
        recv_spec hlimit
      · rw [hrecv]
        refine .inl ⟨hreset, ?_, rfl⟩
        rw [hstream]
        exact hpos
      · rw [hrecv]
        cases chunk with
        | nil =>
          -- the connection is closed, and what has come so far is returned
          have hstream := hnil hpos rfl
          have hreset := hclosed hstream
          refine .inr ⟨fun h => ?_, conn', ?_, ⟨?_, hr, hl⟩⟩
          · rw [hreset] at h
            cases h
          · rw [hstream, take_nil, append_nil]
          · rw [← hcat, nil_append] at hstream ⊢
            rw [hstream, drop_nil]
        | cons b bs =>
          have hlen' := congrArg List.length hcat
          rw [length_append] at hlen'
          have hstep := ih (data ++ b :: bs) conn' (n - (b :: bs).length)
            (by rw [length_append]; omega)
            (by rw [length_cons]; omega) (by rw [hl]; omega)
          obtain ⟨hreset, hshort, hnone⟩ | ⟨henough, conn'', hsome, hafter⟩ := hstep
          · exact .inl ⟨hr ▸ hreset, by omega, hnone⟩
          · refine .inr ⟨fun h => ?_, conn'', ?_, ⟨?_, ?_, ?_⟩⟩
            · have := henough (hr.trans h)
              omega
            · rw [← hcat, take_append, take_of_length_le hlen, ← append_assoc]
              exact hsome
            · rw [hafter.stream, ← hcat, drop_append, drop_of_length_le hlen, nil_append]
            · exact hafter.reset.trans hr
            · exact hafter.limit.trans hl
    · obtain rfl : n = 0 := by omega
      refine .inr ⟨fun _ => Nat.zero_le _, conn, ?_, ⟨rfl, rfl, rfl⟩⟩
      simp [recvLoop, hmore]

/-- `recv_exact` returns the next `count` bytes, or all that are left where the connection
is closed before them. -/
theorem recvExact_spec {count : Nat} (hlimit : count ≤ conn.limit) :
    (conn.reset = true ∧ conn.stream.length < count ∧ recvExact count conn = none) ∨
    ((conn.reset = true → count ≤ conn.stream.length) ∧ ∃ conn',
      recvExact count conn = some (conn.stream.take count, conn') ∧ After count conn conn') :=
  recvLoop_spec count count [] conn count (by simp) le_rfl hlimit

theorem recvExact_of_le (count : Nat) (conn : Conn) (hlimit : count ≤ conn.limit)
    (henough : conn.reset = true → count ≤ conn.stream.length) :
    ∃ conn', recvExact count conn = some (conn.stream.take count, conn') ∧
      After count conn conn' := by
  obtain ⟨hreset, hshort, -⟩ | ⟨-, hsome⟩ := recvExact_spec hlimit
  · have := henough hreset
    omega
  · exact hsome

theorem recvExact_of_reset {count : Nat} (hlimit : count ≤ conn.limit)
    (hreset : conn.reset = true) (hshort : conn.stream.length < count) :
    recvExact count conn = none := by
  obtain ⟨-, -, hnone⟩ | ⟨henough, -⟩ := recvExact_spec hlimit
  · exact hnone
  · have := henough hreset
    omega

theorem recvExact_of_limit_lt {count : Nat} (hlimit : conn.limit < count) :
    recvExact count conn = none := by
  obtain ⟨n, rfl⟩ := Nat.exists_eq_add_of_lt hlimit
  simp only [recvExact, recvLoop, length_nil, Nat.sub_zero, recv]
  rw [if_pos (by omega), if_pos (by omega)]

theorem recvExact_eq_some {count : Nat} {conn conn' : Conn} {data : Bytes}
    (h : recvExact count conn = some (data, conn')) :
    data = conn.stream.take count ∧ After count conn conn' := by
  by_cases hlimit : count ≤ conn.limit
  · obtain ⟨-, -, hnone⟩ | ⟨-, c, hsome, hafter⟩ := recvExact_spec hlimit
    · rw [hnone] at h
      cases h
    · rw [hsome] at h
      cases h
      exact ⟨rfl, hafter⟩
  · rw [recvExact_of_limit_lt (by omega)] at h
    cases h

/-- The first bytes of a frame, up to its payload. -/
structure Header where
  fin : Bool
  opcode : UInt8
  length : Nat
  /-- The masking key, empty where the frame is not masked. -/
  mask : Bytes
  deriving DecidableEq

def bigEndian (bytes : Bytes) : Nat := bytes.foldl (fun n b => n * 256 + b.toNat) 0

def extendedBytes (b : UInt8) : Nat :=
  if b &&& 0x7F = 126 then 2 else if b &&& 0x7F = 127 then 8 else 0

def maskBytes (b : UInt8) : Nat := if b &&& 0x80 = 0 then 0 else 4

def payloadLength (b : UInt8) (extended : Bytes) : Nat :=
  if extendedBytes b = 0 then (b &&& 0x7F).toNat else bigEndian extended

/-- The header at the front of a stream, and what follows it. -/
def wsHeader : Bytes → Option (Header × Bytes)
  | b₀ :: b₁ :: rest =>
    let ext := extendedBytes b₁
    if rest.length < ext + maskBytes b₁ then none
    else some (⟨b₀ &&& 0x80 != 0, b₀ &&& 0x0F, payloadLength b₁ (rest.take ext),
      (rest.drop ext).take (maskBytes b₁)⟩, rest.drop (ext + maskBytes b₁))
  | _ => none

def unmask (mask payload : Bytes) : Bytes :=
  if mask = [] then payload else payload.mapIdx fun i b => b ^^^ mask.getD (i % 4) 0

structure Frame where
  fin : Bool
  opcode : UInt8
  payload : Bytes

def wsFrame (stream : Bytes) : Option (Frame × Bytes) :=
  match wsHeader stream with
  | some (h, body) =>
    if body.length < h.length then none
    else some (⟨h.fin, h.opcode, unmask h.mask (body.take h.length)⟩, body.drop h.length)
  | none => none

/-- The stream holds the missing part of a message, whose payload it is: continuation frames
up to one with FIN, with pings and pongs between them. -/
inductive RestOfMessage : Bytes → Bytes → Prop
  | last {stream f rest} (h : wsFrame stream = some (f, rest)) (hop : f.opcode = 0x0)
      (hfin : f.fin = true) : RestOfMessage stream f.payload
  | more {stream f rest payload} (h : wsFrame stream = some (f, rest)) (hop : f.opcode = 0x0)
      (hfin : f.fin = false) (hrest : RestOfMessage rest payload) :
      RestOfMessage stream (f.payload ++ payload)
  | control {stream f rest payload} (h : wsFrame stream = some (f, rest))
      (hop : f.opcode = 0x9 ∨ f.opcode = 0xA) (hrest : RestOfMessage rest payload) :
      RestOfMessage stream payload

/-- The stream starts with a whole text message, whose complete payload it is. -/
inductive Message : Bytes → Bytes → Prop
  | single {stream f rest} (h : wsFrame stream = some (f, rest)) (hop : f.opcode = 0x1)
      (hfin : f.fin = true) : Message stream f.payload
  | fragmented {stream f rest payload} (h : wsFrame stream = some (f, rest)) (hop : f.opcode = 0x1)
      (hfin : f.fin = false) (hrest : RestOfMessage rest payload) :
      Message stream (f.payload ++ payload)

def Frame.unfinished (f : Frame) (inMessage : Bool) : Bool :=
  if f.opcode = 0x1 ∨ f.opcode = 0x2 then !f.fin
  else if f.opcode = 0x0 then inMessage && !f.fin
  else inMessage

/-- The positions of a stream at which a frame starts, with the flag that says whether the
frames before it leave a message unfinished. -/
inductive Boundary (stream : Bytes) : Bytes → Bool → Prop
  | start : Boundary stream stream false
  | next {s f rest inMessage} (hs : Boundary stream s inMessage) (h : wsFrame s = some (f, rest)) :
      Boundary stream rest (f.unfinished inMessage)

theorem message_iff_of_frame {stream rest : Bytes} {f : Frame} (h : wsFrame stream = some (f, rest))
    (hop : f.opcode = 0x1) :
    Message stream f.payload ↔ f.fin = true ∨ RestOfMessage rest [] := by
  constructor
  · intro hm
    generalize hp : f.payload = payload at hm
    cases hm with
    | single h' hop' hfin =>
      rw [h] at h'
      cases h'
      exact .inl hfin
    | fragmented h' hop' hfin hrest =>
      rw [h] at h'
      cases h'
      rw [self_eq_append_right.mp hp] at hrest
      exact .inr hrest
  · intro hm
    cases hfin : f.fin with
    | true => exact .single h hop hfin
    | false =>
      rw [hfin] at hm
      have hrest := hm.resolve_left Bool.false_ne_true
      simpa using Message.fragmented h hop hfin hrest

theorem not_message_of_frame_none {stream payload : Bytes} (h : wsFrame stream = none) :
    ¬ Message stream payload := by
  intro hm
  cases hm with
  | single h' => rw [h] at h'; cases h'
  | fragmented h' => rw [h] at h'; cases h'

/-- What `ws_recv` returns: `(None, None)`, or an opcode and a payload. -/
inductive Received
  | closed
  | frame (opcode : UInt8) (payload : Bytes)

def wsRecv (conn : Conn) : Option (Received × Conn) := do
  let (header, conn) ← recvExact 2 conn
  match header with
  | [] => some (.closed, conn)
  | [_] => none -- `header[1]` is out of range
  | b₀ :: b₁ :: _ =>
    let (extended, conn) ← recvExact (extendedBytes b₁) conn
    -- `struct.unpack` wants the exact number of bytes
    if extended.length < extendedBytes b₁ then none
    else
      let length := payloadLength b₁ extended
      let (mask, conn) ← recvExact (maskBytes b₁) conn
      let (payload, conn) ← recvExact length conn
      -- `mask[i % 4]` is out of range where the key is cut off
      if maskBytes b₁ ≠ 0 ∧ payload ≠ [] ∧ mask.length < min 4 payload.length then none
      else some (.frame (b₀ &&& 0x0F) (unmask mask payload), conn)

theorem extendedBytes_le (b : UInt8) : extendedBytes b ≤ 8 := by
  unfold extendedBytes
  split
  · omega
  · split <;> omega

theorem maskBytes_le (b : UInt8) : maskBytes b ≤ 8 := by
  unfold maskBytes
  split <;> omega

theorem wsHeader_eq_some {stream body : Bytes} {h : Header}
    (hh : wsHeader stream = some (h, body)) : ∃ b₀ b₁ rest, stream = b₀ :: b₁ :: rest ∧
      extendedBytes b₁ + maskBytes b₁ ≤ rest.length ∧ h.opcode = b₀ &&& 0x0F ∧
      h.length = payloadLength b₁ (rest.take (extendedBytes b₁)) ∧
      h.mask = (rest.drop (extendedBytes b₁)).take (maskBytes b₁) ∧
      body = rest.drop (extendedBytes b₁ + maskBytes b₁) := by
  unfold wsHeader at hh
  split at hh
  · next b₀ b₁ rest =>
    dsimp only at hh
    split at hh
    · cases hh
    · cases hh
      exact ⟨b₀, b₁, rest, rfl, by omega, rfl, rfl, rfl, rfl⟩
  · cases hh

theorem wsHeader_cons {b₀ b₁ : UInt8} {rest : Bytes}
    (h : extendedBytes b₁ + maskBytes b₁ ≤ rest.length) :
    wsHeader (b₀ :: b₁ :: rest) = some (⟨b₀ &&& 0x80 != 0, b₀ &&& 0x0F,
      payloadLength b₁ (rest.take (extendedBytes b₁)),
      (rest.drop (extendedBytes b₁)).take (maskBytes b₁)⟩,
      rest.drop (extendedBytes b₁ + maskBytes b₁)) := by
  simp only [wsHeader]
  rw [if_neg (by omega)]

theorem wsRecv_eq_of_header {h : Header} {body : Bytes}
    (hh : wsHeader conn.stream = some (h, body)) : ∃ conn' : Conn, conn'.stream = body ∧
      conn'.reset = conn.reset ∧ conn'.limit = conn.limit ∧
      wsRecv conn = (recvExact h.length conn').map fun r =>
        (.frame h.opcode (unmask h.mask r.1), r.2) := by
  obtain ⟨b₀, b₁, rest, hstream, hlen, hop, hlength, hmask, rfl⟩ := wsHeader_eq_some hh
  have hext := extendedBytes_le b₁
  have hkey := maskBytes_le b₁
  have hlimit := conn.limit_ge
  obtain ⟨c₁, hrecv₁, hafter₁⟩ := recvExact_of_le 2 conn (by omega)
    (by rw [hstream]; simp)
  obtain ⟨c₂, hrecv₂, hafter₂⟩ := recvExact_of_le (extendedBytes b₁) c₁
    (by rw [hafter₁.limit]; omega) (by rw [hafter₁.stream, hstream]; simp; omega)
  obtain ⟨c₃, hrecv₃, hafter₃⟩ := recvExact_of_le (maskBytes b₁) c₂
    (by rw [hafter₂.limit, hafter₁.limit]; omega)
    (by rw [hafter₂.stream, hafter₁.stream, hstream]; simp; omega)
  have hstream₁ : c₁.stream = rest := by rw [hafter₁.stream, hstream]; rfl
  have hstream₂ : c₂.stream = rest.drop (extendedBytes b₁) := by rw [hafter₂.stream, hstream₁]
  refine ⟨c₃, ?_, ?_, ?_, ?_⟩
  · rw [hafter₃.stream, hstream₂, drop_drop]
  · rw [hafter₃.reset, hafter₂.reset, hafter₁.reset]
  · rw [hafter₃.limit, hafter₂.limit, hafter₁.limit]
  · have hfull : (rest.take (extendedBytes b₁)).length = extendedBytes b₁ := by
      rw [length_take]
      omega
    have hmaskLen : h.mask.length = maskBytes b₁ := by
      rw [hmask, length_take, length_drop]
      omega
    rw [hstream] at hrecv₁
    rw [hstream₁] at hrecv₂
    rw [hstream₂, ← hmask] at hrecv₃
    simp only [wsRecv, hrecv₁, bind_eq_bind, bind_some, take_succ_cons,
      take_zero, hrecv₂, hfull, lt_irrefl, if_false, hrecv₃, ← hlength, hop]
    cases hpayload : recvExact h.length c₃ with
    | none => rfl
    | some r =>
      simp only [bind_some, map_some, hmaskLen]
      rw [if_neg]
      rintro ⟨hmasked, -, hshort⟩
      have hfour : maskBytes b₁ = 4 := by
        unfold maskBytes at hmasked ⊢
        split at hmasked
        · exact absurd rfl hmasked
        · next hne => rw [if_neg hne]
      omega

/-- Where the stream holds the header and enough of the payload, or the peer just closes,
`ws_recv` returns what there is of the payload. -/
theorem wsRecv_of_header {h : Header} {body : Bytes}
    (hh : wsHeader conn.stream = some (h, body)) (hlimit : h.length ≤ conn.limit)
    (henough : conn.reset = true → h.length ≤ body.length) : ∃ conn',
      wsRecv conn = some (.frame h.opcode (unmask h.mask (body.take h.length)), conn') ∧
      conn'.stream = body.drop h.length ∧ conn'.reset = conn.reset ∧ conn'.limit = conn.limit := by
  obtain ⟨c, rfl, hreset, hlim, hrecv⟩ := wsRecv_eq_of_header hh
  obtain ⟨conn', hsome, hafter⟩ := recvExact_of_le h.length c (hlim ▸ hlimit) (hreset ▸ henough)
  refine ⟨conn', ?_, hafter.stream, hafter.reset.trans hreset, hafter.limit.trans hlim⟩
  rw [hrecv, hsome, map_some]

theorem wsRecv_raises_of_header {h : Header} {body : Bytes}
    (hh : wsHeader conn.stream = some (h, body))
    (hno : ¬ (h.length ≤ conn.limit ∧ (conn.reset = true → h.length ≤ body.length))) :
    wsRecv conn = none := by
  obtain ⟨c, rfl, hreset, hlim, hrecv⟩ := wsRecv_eq_of_header hh
  rw [hrecv]
  by_cases hlimit : h.length ≤ conn.limit
  · have hshort : ¬ (conn.reset = true → h.length ≤ c.stream.length) := fun h => hno ⟨hlimit, h⟩
    push Not at hshort
    rw [recvExact_of_reset (hlim ▸ hlimit) (hreset ▸ hshort.1) hshort.2, map_none]
  · rw [recvExact_of_limit_lt (by omega), map_none]

theorem unmask_nil (mask : Bytes) : unmask mask [] = [] := by
  unfold unmask
  split <;> rfl

theorem wsRecv_of_no_header {conn conn' : Conn} {r : Received}
    (hh : wsHeader conn.stream = none) (h : wsRecv conn = some (r, conn')) :
    conn'.stream = [] ∧ (r = .closed ∨ ∃ opcode, r = .frame opcode []) := by
  obtain ⟨⟨header, c₁⟩, h₁, h⟩ := bind_eq_some_iff.mp h
  obtain ⟨rfl, hafter₁⟩ := recvExact_eq_some h₁
  have hstream₁ := hafter₁.stream
  dsimp only at h
  split at h
  · next hnil =>
    cases h
    have hempty : conn.stream = [] := by simpa using hnil
    exact ⟨by rw [hstream₁, hempty]; rfl, .inl rfl⟩
  · cases h
  · next b₀ b₁ more hcons =>
    obtain ⟨rest, hrest⟩ : ∃ rest, conn.stream = b₀ :: b₁ :: rest := by
      match hs : conn.stream with
      | [] => simp [hs] at hcons
      | [b] => simp [hs] at hcons
      | x :: y :: rest =>
        rw [hs] at hcons
        cases hcons
        exact ⟨rest, rfl⟩
    have hshort : rest.length < extendedBytes b₁ + maskBytes b₁ := by
      by_contra hlong
      rw [hrest, wsHeader_cons (by omega)] at hh
      cases hh
    obtain ⟨⟨extended, c₂⟩, h₂, h⟩ := bind_eq_some_iff.mp h
    obtain ⟨rfl, hafter₂⟩ := recvExact_eq_some h₂
    dsimp only at h
    split at h
    · cases h
    · obtain ⟨⟨mask, c₃⟩, h₃, h⟩ := bind_eq_some_iff.mp h
      obtain ⟨rfl, hafter₃⟩ := recvExact_eq_some h₃
      obtain ⟨⟨payload, c₄⟩, h₄, h⟩ := bind_eq_some_iff.mp h
      obtain ⟨rfl, hafter₄⟩ := recvExact_eq_some h₄
      have hstream₃ : c₃.stream = [] := by
        rw [hafter₃.stream, hafter₂.stream, hstream₁, hrest]
        apply eq_nil_of_length_eq_zero
        simp only [length_drop, length_cons]
        omega
      dsimp only at h
      split at h
      · cases h
      · cases h
        rw [hafter₄.stream, hstream₃, take_nil, unmask_nil, drop_nil]
        exact ⟨rfl, .inr ⟨_, rfl⟩⟩

end NikitaFirmware.Bridge
