import NikitaFirmware.Bridge.Handle

/-!
# Commands and the messages they come from

Every call of `respond` should carry the complete payload of one text message. `recv_exact`
returns what has come when the peer closes, and `ws_recv` ignores FIN, so the first frame of
a fragmented message and the received part of a cut-off frame are executed too. What a peer
sends behind its request without waiting for the reply is taken for a part of the request, and
the frames are cut wrongly then. The calls are whole messages of what the peer has sent
exactly in the runs in which no such frame is executed.
-/

namespace NikitaFirmware.Bridge
open Foundations List

/-- The frames that the peer sends: what stands behind the first end of a header. -/
def Conn.frames (conn : Conn) : Bytes := ((strstr headerEnd conn.stream).getD []).drop headerEnd.length

/-- The call carries the complete payload of a text message that starts at a frame of the
stream, outside any other message. -/
structure Call.Whole (frames : Bytes) (c : Call) : Prop where
  boundary : Boundary frames c.start false
  message : Message c.start c.payload
  command : c.command = commandOf c.payload

/-- `handle` lets commands through to `respond`. -/
def Handler.serves (args : Args) (s : Handler) : Prop := args.token = none ∨ s.authorised = true

/-- The frame at the front of the stream is a text frame that `handle` executes: what comes
of its payload is no blank command, and no read of it raises. -/
def Handler.Executes (args : Args) (s : Handler) (h : Header) (body : Bytes) : Prop :=
  wsHeader s.conn.stream = some (h, body) ∧ h.opcode = 0x1 ∧ s.serves args ∧
    h.length ≤ s.conn.limit ∧ (s.conn.reset = true → h.length ≤ body.length) ∧
    commandOf (unmask h.mask (body.take h.length)) ≠ []

/-- A text frame that is executed is one of those that the peer sends, outside any other message,
is all there, and ends its message, up to fragments that add nothing. -/
def TextFramesWhole (args : Args) (frames : Bytes) (s : Handler) (_ : Turn) : Prop :=
  ∀ h body, s.Executes args h body → Boundary frames s.conn.stream false ∧
    h.length ≤ body.length ∧ (h.fin = true ∨ RestOfMessage (body.drop h.length) [])

/-- The pieces of a request whose header ends with the last of them, and not before: the
peer waits for the reply. -/
def Waits : Bytes → List Bytes → Prop
  | request, [] => strstr headerEnd request = some headerEnd
  | request, piece :: pieces => (strstr headerEnd request).isSome = false ∧ piece ≠ [] ∧
      piece.length ≤ 4096 ∧ Waits (request ++ piece) pieces

section Turns

variable {args : Args} {s s' : Handler} {turn : Turn}

@[simp] theorem send_calls (m : Sent) : (s.send turn m).calls = s.calls := by
  unfold Handler.send
  split <;> rfl

@[simp] theorem send_conn (m : Sent) : (s.send turn m).conn = s.conn := by
  unfold Handler.send
  split <;> rfl

@[simp] theorem respond_calls (c : Call) : (s.respond turn c).calls = s.calls ++ [c] := by
  unfold Handler.respond
  dsimp only
  split
  · exact send_calls _
  · rfl

@[simp] theorem frame_conn (opcode : UInt8) (c : Call) :
    (s.frame args turn opcode c).conn = s.conn := by
  unfold Handler.frame Handler.command Handler.respond
  repeat' split
  all_goals simp

theorem frame_calls (args : Args) (s : Handler) (turn : Turn) (opcode : UInt8) (c : Call) :
    (opcode = 0x1 ∧ s.serves args ∧ c.command ≠ [] ∧
      (s.frame args turn opcode c).calls = s.calls ++ [c]) ∨
    (¬ (opcode = 0x1 ∧ s.serves args ∧ c.command ≠ []) ∧
      (s.frame args turn opcode c).calls = s.calls) := by
  unfold Handler.frame
  by_cases hclose : opcode = 0x8
  · simp [hclose]
  by_cases hping : opcode = 0x9
  · simp [hping]
  by_cases htext : opcode = 0x1
  · rw [if_neg hclose, if_neg hping, if_neg (not_not.mpr htext)]
    unfold Handler.command Handler.serves
    by_cases hblank : c.command = []
    · simp [hblank]
    · rw [if_neg hblank]
      cases htoken : args.token with
      | none => simp [htext, hblank]
      | some secret =>
        cases hauth : s.authorised with
        | true => simp [htext, hblank]
        | false =>
          dsimp only
          split <;> simp [htext]
  · simp [hclose, hping, htext]

theorem step_cases (h : (Handler.machine args).step s turn = some s') :
    (∃ hd body conn', wsHeader s.conn.stream = some (hd, body) ∧ hd.length ≤ s.conn.limit ∧
      (s.conn.reset = true → hd.length ≤ body.length) ∧ conn'.stream = body.drop hd.length ∧
      s' = { s with conn := conn' }.frame args turn hd.opcode
        ⟨commandOf (unmask hd.mask (body.take hd.length)), unmask hd.mask (body.take hd.length),
          s.conn.stream, s.heard⟩) ∨
    ((∀ hd body, wsHeader s.conn.stream = some (hd, body) →
        ¬ (hd.length ≤ s.conn.limit ∧ (s.conn.reset = true → hd.length ≤ body.length))) ∧
      s'.calls = s.calls ∧ (s'.conn.stream = [] ∨ s'.conn = s.conn)) := by
  simp only [Handler.machine, Handler.step] at h
  split at h
  · cases hheader : wsHeader s.conn.stream with
    | none =>
      refine .inr ⟨by simp, ?_⟩
      cases hrecv : wsRecv s.conn with
      | none =>
        rw [hrecv] at h
        cases h
        exact ⟨rfl, .inr rfl⟩
      | some r =>
        obtain ⟨r, conn'⟩ := r
        obtain ⟨hend, rfl | ⟨opcode, rfl⟩⟩ := wsRecv_of_no_header hheader hrecv
        · rw [hrecv] at h
          cases h
          exact ⟨rfl, .inl hend⟩
        · rw [hrecv] at h
          cases h
          obtain ⟨-, -, hcommand, -⟩ | ⟨-, hcalls⟩ := frame_calls args { s with conn := conn' } turn
            opcode ⟨commandOf [], [], s.conn.stream, s.heard⟩
          · exact absurd commandOf_nil hcommand
          · exact ⟨hcalls, .inl (by rw [frame_conn]; exact hend)⟩
    | some p =>
      obtain ⟨hd, body⟩ := p
      by_cases hread : hd.length ≤ s.conn.limit ∧ (s.conn.reset = true → hd.length ≤ body.length)
      · obtain ⟨conn', hrecv, hstream, -, -⟩ := wsRecv_of_header hheader hread.1 hread.2
        rw [hrecv] at h
        exact .inl ⟨hd, body, conn', rfl, hread.1, hread.2, hstream, (Option.some.inj h).symm⟩
      · rw [wsRecv_raises_of_header hheader hread] at h
        cases h
        refine .inr ⟨fun hd' body' heq => ?_, rfl, .inr rfl⟩
        cases heq
        exact hread
  · cases h

theorem step_calls (h : (Handler.machine args).step s turn = some s') :
    (∃ hd body, s.Executes args hd body ∧ s'.calls = s.calls ++
      [⟨commandOf (unmask hd.mask (body.take hd.length)), unmask hd.mask (body.take hd.length),
        s.conn.stream, s.heard⟩]) ∨
    ((∀ hd body, ¬ s.Executes args hd body) ∧ s'.calls = s.calls) := by
  obtain ⟨hd, body, conn', hheader, hlimit, henough, -, rfl⟩ | ⟨hno, hcalls, -⟩ := step_cases h
  · obtain ⟨hop, hserves, hcommand, hcalls⟩ | ⟨hno, hcalls⟩ := frame_calls args
      { s with conn := conn' } turn hd.opcode ⟨commandOf (unmask hd.mask (body.take hd.length)),
        unmask hd.mask (body.take hd.length), s.conn.stream, s.heard⟩
    · exact .inl ⟨hd, body, ⟨hheader, hop, hserves, hlimit, henough, hcommand⟩, hcalls⟩
    · refine .inr ⟨?_, hcalls⟩
      rintro hd' body' ⟨hheader', hop, hserves, -, -, hcommand⟩
      rw [hheader] at hheader'
      cases hheader'
      exact hno ⟨hop, hserves, hcommand⟩
  · exact .inr ⟨fun hd body hex => hno hd body hex.1 ⟨hex.2.2.2.1, hex.2.2.2.2.1⟩, hcalls⟩

theorem wsFrame_of_header {stream body : Bytes} {hd : Header}
    (hheader : wsHeader stream = some (hd, body)) (henough : hd.length ≤ body.length) :
    wsFrame stream = some (⟨hd.fin, hd.opcode, unmask hd.mask (body.take hd.length)⟩,
      body.drop hd.length) := by
  simp only [wsFrame, hheader]
  rw [if_neg (by omega)]

theorem wsFrame_of_short_header {stream body : Bytes} {hd : Header}
    (hheader : wsHeader stream = some (hd, body)) (hshort : body.length < hd.length) :
    wsFrame stream = none := by
  simp only [wsFrame, hheader]
  rw [if_pos hshort]

variable {frames : Bytes}

theorem whole_iff {hd : Header} {body : Bytes} (hex : s.Executes args hd body) :
    Call.Whole frames ⟨commandOf (unmask hd.mask (body.take hd.length)),
      unmask hd.mask (body.take hd.length), s.conn.stream, s.heard⟩ ↔
    Boundary frames s.conn.stream false ∧ hd.length ≤ body.length ∧
      (hd.fin = true ∨ RestOfMessage (body.drop hd.length) []) := by
  obtain ⟨hheader, hop, -, -, -, -⟩ := hex
  constructor
  · rintro ⟨hboundary, hmessage, -⟩
    by_cases henough : hd.length ≤ body.length
    · exact ⟨hboundary, henough,
        (message_iff_of_frame (wsFrame_of_header hheader henough) hop).mp hmessage⟩
    · exact absurd hmessage (not_message_of_frame_none (wsFrame_of_short_header hheader (by omega)))
  · rintro ⟨hboundary, henough, hrest⟩
    exact ⟨hboundary, (message_iff_of_frame (wsFrame_of_header hheader henough) hop).mpr hrest, rfl⟩

theorem whole_step (s : Handler) (turn : Turn) (s' : Handler)
    (hs : ∀ c ∈ s.calls, c.Whole frames) (hok : TextFramesWhole args frames s turn)
    (h : (Handler.machine args).step s turn = some s') : ∀ c ∈ s'.calls, c.Whole frames := by
  obtain ⟨hd, body, hex, hcalls⟩ | ⟨-, hcalls⟩ := step_calls h
  · intro c hc
    rw [hcalls] at hc
    rcases mem_append.mp hc with hc | hc
    · exact hs c hc
    · rw [mem_singleton.mp hc]
      exact (whole_iff hex).mpr (hok hd body hex)
  · rw [hcalls]
    exact hs

theorem partial_of_not_ok (s : Handler) (turn : Turn) (s' : Handler) (_ : True)
    (hok : ¬ TextFramesWhole args frames s turn)
    (h : (Handler.machine args).step s turn = some s') : ∃ c ∈ s'.calls, ¬ c.Whole frames := by
  unfold TextFramesWhole at hok
  push Not at hok
  obtain ⟨hd, body, hex, hbad⟩ := hok
  obtain ⟨hd', body', hex', hcalls⟩ | ⟨hno, -⟩ := step_calls h
  · have hsame := hex.1.symm.trans hex'.1
    cases hsame
    refine ⟨_, by rw [hcalls]; exact mem_append_right _ mem_cons_self, ?_⟩
    intro hwhole
    obtain ⟨h₁, h₂, h₃⟩ := (whole_iff hex).mp hwhole
    exact (hbad h₁ h₂).1 (h₃.resolve_right (hbad h₁ h₂).2)
  · exact absurd hex (hno hd body)

theorem partial_step (s : Handler) (turn : Turn) (s' : Handler)
    (hs : ∃ c ∈ s.calls, ¬ c.Whole frames) (h : (Handler.machine args).step s turn = some s') :
    ∃ c ∈ s'.calls, ¬ c.Whole frames := by
  obtain ⟨c, hc, hfragment⟩ := hs
  refine ⟨c, ?_, hfragment⟩
  obtain ⟨hd, body, -, hcalls⟩ | ⟨-, hcalls⟩ := step_calls h
  · rw [hcalls]
    exact mem_append_left _ hc
  · rw [hcalls]
    exact hc

/-- Until the stream ends, the next frame starts at a boundary of it. -/
def Handler.Aligned (frames : Bytes) (s : Handler) : Prop :=
  s.conn.stream = [] ∨ ∃ inMessage, Boundary frames s.conn.stream inMessage

theorem aligned_step (s : Handler) (turn : Turn) (s' : Handler)
    (hs : s.Aligned frames) (h : (Handler.machine args).step s turn = some s') :
    s'.Aligned frames := by
  unfold Handler.Aligned
  obtain ⟨hd, body, conn', hheader, -, -, hstream, rfl⟩ | ⟨-, -, hend | hconn⟩ := step_cases h
  · rw [frame_conn, hstream]
    by_cases hshort : body.length < hd.length
    · exact .inl (drop_of_length_le (by omega))
    · have hne : s.conn.stream ≠ [] := by
        intro hnil
        rw [hnil] at hheader
        cases hheader
      obtain ⟨inMessage, hboundary⟩ := hs.resolve_left hne
      exact .inr ⟨_, hboundary.next (wsFrame_of_header hheader (by omega))⟩
  · exact .inl hend
  · rw [hconn]
    exact hs

end Turns

theorem nextPiece_cons {count : Nat} {piece : Bytes} {pieces : List Bytes} (hne : piece ≠ [])
    (hle : piece.length ≤ count) : nextPiece count (piece :: pieces) = (piece, pieces) := by
  cases piece with
  | nil => exact absurd rfl hne
  | cons b bs => rw [nextPiece, if_pos hle, take_of_length_le hle]

theorem readRequest_of_waits {request : Bytes} {pieces rest : List Bytes} {conn : Conn}
    (turns : Nat) (hconn : conn.pieces = pieces ++ rest) (hwaits : Waits request pieces)
    (hlimit : 4096 ≤ conn.limit) (hturns : pieces.length < turns) : ∃ request' conn',
      readRequest turns request conn = some (some request', conn') ∧ conn'.pieces = rest := by
  induction turns generalizing request pieces conn with
  | zero => exact absurd hturns (Nat.not_lt_zero _)
  | succ turns ih =>
    cases pieces with
    | nil =>
      rw [Waits] at hwaits
      refine ⟨request, conn, ?_, hconn⟩
      rw [readRequest, hwaits, Option.isSome_some, if_pos rfl]
    | cons piece pieces =>
      obtain ⟨hmore, hne, hle, hwaits⟩ := hwaits
      have hrecv : recv 4096 conn = some (piece, { conn with pieces := pieces ++ rest }) := by
        have hstream : conn.stream ≠ [] := by
          rw [Conn.stream, hconn]
          simp [hne]
        rw [recv, if_neg (by omega), if_neg (fun h => hstream h.1), hconn, cons_append,
          nextPiece_cons hne hle]
      rw [readRequest, hmore, if_neg Bool.false_ne_true, hrecv]
      rw [length_cons] at hturns
      cases piece with
      | nil => exact absurd rfl hne
      | cons b bs => exact ih rfl hwaits hlimit (by omega)

theorem Waits.flatten {request : Bytes} {pieces : List Bytes} (h : Waits request pieces) :
    strstr headerEnd (request ++ pieces.flatten) = some headerEnd ∧
      pieces.length ≤ pieces.flatten.length := by
  induction pieces generalizing request with
  | nil => exact ⟨by rw [flatten_nil, append_nil]; exact h, le_rfl⟩
  | cons piece pieces ih =>
    obtain ⟨-, hne, -, hwaits⟩ := h
    obtain ⟨hend, hlen⟩ := ih hwaits
    have hpos := length_pos_iff.mpr hne
    rw [flatten_cons, ← append_assoc, length_append, length_cons]
    exact ⟨hend, by omega⟩

/-- When the peer waits, just its request is read, and all of its frames are left. -/
theorem handle_of_waits (args : Args) (sends : Bool) {conn : Conn} {request pieces : List Bytes}
    (hconn : conn.pieces = request ++ pieces) (hwaits : Waits [] request)
    (hlimit : 4096 ≤ conn.limit) : (handle args sends conn).conn.stream = conn.frames := by
  obtain ⟨hend, hlen⟩ := hwaits.flatten
  rw [nil_append] at hend
  have hstream : conn.stream = request.flatten ++ pieces.flatten := by
    rw [Conn.stream, hconn, flatten_append]
  have hframes : conn.frames = pieces.flatten := by
    rw [Conn.frames, hstream, strstr_append hend, Option.getD_some, drop_left]
  obtain ⟨request', conn', hread, hrest⟩ := readRequest_of_waits (conn.stream.length + 2) hconn hwaits
    hlimit (by rw [hstream, length_append]; omega)
  have hleft : conn'.stream = conn.frames := by rw [hframes, Conn.stream, hrest]
  have hshake : ∃ r, wsHandshake conn = some (r, conn') ∧ r ≠ .closed := by
    rw [wsHandshake, hread]
    cases hkey : websocketKey request' with
    | none => exact ⟨.refused, by simp [hkey], by decide⟩
    | some key =>
      cases key with
      | nil => exact ⟨.refused, by simp [hkey], by decide⟩
      | cons b bs => exact ⟨.accepted (b :: bs), by simp [hkey], by simp⟩
  obtain ⟨r, hshake, hopen⟩ := hshake
  unfold handle
  rw [hshake]
  cases r with
  | closed => exact absurd rfl hopen
  | refused => simpa using hleft
  | accepted key => simpa using hleft

theorem handle_calls (args : Args) (sends : Bool) (conn : Conn) :
    (handle args sends conn).calls = [] := by
  unfold handle
  dsimp only
  split <;> simp

/-- On every connection each call of `respond` carries one whole text message of what the peer sends
exactly if every text frame that is executed is one of its frames, outside any other message, is
not cut off and does not begin a fragmented message. The first of these holds in each turn when
the peer waits for the reply to its request. -/
theorem commands_whole_iff (args : Args) (sends : Bool) (conn : Conn) (turns : List Turn)
    (s : Handler) (h : (Handler.machine args).run (handle args sends conn) turns = some s) :
    ((∀ c ∈ s.calls, c.Whole conn.frames) ↔
      (Handler.machine args).Meets (TextFramesWhole args conn.frames) (handle args sends conn) turns) ∧
    ∀ request pieces, conn.pieces = request ++ pieces → Waits [] request → 4096 ≤ conn.limit →
      s.conn.stream = [] ∨ ∃ inMessage, Boundary conn.frames s.conn.stream inMessage := by
  have hcalls := handle_calls args sends conn
  refine ⟨⟨fun hwhole => ?_, fun hok => ?_⟩, fun request pieces hconn hwaits hlimit => ?_⟩
  · by_contra hbad
    obtain ⟨c, hc, hfragment⟩ := (Handler.machine args).run_of_not_meets (fun _ _ _ _ _ => trivial)
      partial_of_not_ok (fun s turn s' _ hs h => partial_step s turn s' hs h) trivial hbad h
    exact hfragment (hwhole c hc)
  · exact (Handler.machine args).run_invariant_of_meets whole_step (by simp [hcalls]) hok h
  · have h₀ : (handle args sends conn).Aligned conn.frames :=
      .inr ⟨false, handle_of_waits args sends hconn hwaits hlimit ▸ .start⟩
    exact (Handler.machine args).run_invariant aligned_step h₀ h

/-- A handshake, and what the peer sends behind it. -/
def connection (frames : List Bytes) : Conn where
  pieces := ascii "GET / HTTP/1.1\r\nSec-WebSocket-Key: k\r\n\r\n" :: frames
  reset := false
  limit := 65536
  limit_ge := by decide

/-- A whole text frame, in three pieces. -/
def pingConnection : Conn := connection [[0x81], [0x84, 0, 0, 0], 0 :: ascii "ping"]

theorem pingConnection_whole : ∃ s,
    (Handler.machine ⟨none⟩).run (handle ⟨none⟩ true pingConnection) [⟨some (text "pong"), true⟩] =
      some s ∧ s.calls.map Call.command = [text "ping"] ∧
      (∀ c ∈ s.calls, c.Whole pingConnection.frames) ∧ (s.conn.stream = [] ∨
        ∃ inMessage, Boundary pingConnection.frames s.conn.stream inMessage) := by
  have hcalls : ((Handler.machine ⟨none⟩).run (handle ⟨none⟩ true pingConnection)
      [⟨some (text "pong"), true⟩]).map (fun s => s.calls.map Call.command) = some [text "ping"] := by
    decide
  obtain ⟨s, hs, hping⟩ := Option.map_eq_some_iff.mp hcalls
  obtain ⟨hwhole, haligned⟩ := commands_whole_iff ⟨none⟩ true pingConnection _ s hs
  refine ⟨s, hs, hping, hwhole.mpr ⟨?_, trivial⟩,
    haligned [_] _ rfl ⟨by decide, by decide, by decide, by rw [Waits]; decide⟩ (by decide)⟩
  have hstream : (handle ⟨none⟩ true pingConnection).conn.stream = pingConnection.frames := by decide
  rintro hd body ⟨hheader, -⟩
  have heq : wsHeader (handle ⟨none⟩ true pingConnection).conn.stream =
      some (⟨true, 1, 4, [0, 0, 0, 0]⟩, ascii "ping") := by decide
  rw [hheader] at heq
  cases heq
  exact ⟨hstream ▸ .start, by decide, .inl rfl⟩

/-- The peer closes after 13 of the 18 bytes of `host rm -rf /tmp/x`. -/
def cutConnection : Conn := connection [[0x81, 0x92, 0, 0, 0, 0], ascii "host rm -rf /"]

/-- The bridge executes the part that came. -/
theorem commands_not_always_whole : ¬ ∀ (args : Args) (sends : Bool) (conn : Conn)
    (turns : List Turn) (s : Handler),
    (Handler.machine args).run (handle args sends conn) turns = some s →
      ∀ c ∈ s.calls, c.Whole conn.frames := by
  intro hall
  have hwhole := hall ⟨none⟩ true cutConnection [⟨some [], true⟩]
    (((Handler.machine ⟨none⟩).run (handle ⟨none⟩ true cutConnection) [⟨some [], true⟩]).get
      (by decide)) (by decide)
    ⟨text "host rm -rf /", ascii "host rm -rf /", cutConnection.pieces.tail.flatten, []⟩
    (by decide)
  exact not_message_of_frame_none (by decide) hwhole.message

end NikitaFirmware.Bridge
