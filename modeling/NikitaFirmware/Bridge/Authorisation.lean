import NikitaFirmware.Bridge.Handle

/-!
# The mailbox transport of the bridge

`mailbox_loop` polls a request file on the Flipper's card. A request is a number, a dot and
the command in base64. A step of the machine below is one turn of the loop that finds a
request file or none, or a serial failure, which ends the loop.
-/

namespace NikitaFirmware.Bridge
open Foundations List Option

section Base64

/-- The six bits a character of the alphabet stands for. -/
def sextet (c : Char) : Option Nat :=
  let n := c.toNat
  if 65 ≤ n ∧ n ≤ 90 then some (n - 65)
  else if 97 ≤ n ∧ n ≤ 122 then some (n - 71)
  else if 48 ≤ n ∧ n ≤ 57 then some (n + 4)
  else if n = 43 then some 62
  else if n = 47 then some 63
  else none

/-- The state of the decoder: characters seen of the current quad, the bits left over, the
pads seen in a row. -/
structure Quad where
  pos : Nat
  left : Nat
  pads : Nat

/-- `binascii.a2b_base64` of ASCII text, which skips what is not in the alphabet. -/
def decodeQuads : Quad → Text → Option Bytes
  | q, [] => if q.pos = 0 then some [] else none
  | q, c :: cs =>
    if c.toNat = 61 then
      if 2 ≤ q.pos then
        -- a full pad ends the data, whatever follows it
        if 4 ≤ q.pos + (q.pads + 1) then some [] else decodeQuads { q with pads := q.pads + 1 } cs
      else decodeQuads q cs
    else
      match sextet c with
      | none => decodeQuads q cs
      | some v =>
        if q.pos = 0 then decodeQuads ⟨1, v, 0⟩ cs
        else if q.pos = 1 then
          (decodeQuads ⟨2, v % 16, 0⟩ cs).map (UInt8.ofNat (q.left * 4 + v / 16) :: ·)
        else if q.pos = 2 then
          (decodeQuads ⟨3, v % 4, 0⟩ cs).map (UInt8.ofNat (q.left * 16 + v / 4) :: ·)
        else (decodeQuads ⟨0, 0, 0⟩ cs).map (UInt8.ofNat (q.left * 64 + v) :: ·)

/-- `base64.b64decode` of a `str`; no result where it raises. -/
def b64decode (s : Text) : Option Bytes :=
  if s.all fun c => c.toNat < 128 then decodeQuads ⟨0, 0, 0⟩ s else none

def base64Char (n : Nat) : Char :=
  if n < 26 then Char.ofNat (n + 65)
  else if n < 52 then Char.ofNat (n + 71)
  else if n < 62 then Char.ofNat (n - 4)
  else if n = 62 then Char.ofNat 43
  else Char.ofNat 47

def b64encode : Bytes → Text
  | [] => []
  | [a] =>
    [base64Char (a.toNat / 4), base64Char (a.toNat % 4 * 16), Char.ofNat 61, Char.ofNat 61]
  | [a, b] =>
    [base64Char (a.toNat / 4), base64Char (a.toNat % 4 * 16 + b.toNat / 16),
      base64Char (b.toNat % 16 * 4), Char.ofNat 61]
  | a :: b :: c :: rest =>
    base64Char (a.toNat / 4) :: base64Char (a.toNat % 4 * 16 + b.toNat / 16) ::
      base64Char (b.toNat % 16 * 4 + c.toNat / 64) :: base64Char (c.toNat % 64) :: b64encode rest

end Base64

def partition (s : Text) : Text × Text :=
  (s.takeWhile (· ≠ Char.ofNat 46), (s.dropWhile (· ≠ Char.ofNat 46)).drop 1)

/-- The number and the command that the loop reads in a request file. -/
def mailboxCommand (body : Bytes) : Text × Text :=
  let (reqId, b64) := partition (strip (decodeUtf8 body))
  (reqId, ((b64decode b64).map decodeUtf8).getD [])

def encodeUtf8 (s : Text) : Bytes := s.flatMap String.utf8EncodeChar

structure MailboxCall where
  command : Text
  /-- The commands received through the mailbox before this one. -/
  heard : List Text
  deriving DecidableEq

structure MailboxLoop where
  running : Bool
  calls : List MailboxCall
  heard : List Text
  /-- What the loop has written to the answer file. -/
  results : List Text
  deriving DecidableEq

inductive MailboxTurn
  /-- What `read_file` returns, and what `respond` returns or the text of what it raises. -/
  | poll (body : Option Bytes) (answer : Text ⊕ Text)
  /-- A serial error ends the loop. -/
  | fail

def MailboxLoop.start : MailboxLoop := ⟨true, [], [], []⟩

/-- The answer that goes into the file. -/
def mailboxAnswer : Text ⊕ Text → Text
  | .inl answer => answer
  | .inr exc => text "bridge error: " ++ exc

def MailboxLoop.request (s : MailboxLoop) (body : Bytes) (answer : Text ⊕ Text) : MailboxLoop :=
  let (reqId, command) := mailboxCommand body
  if command = [] then s
  else
    let s : MailboxLoop :=
      { s with calls := s.calls ++ [⟨command, s.heard⟩], heard := s.heard ++ [command] }
    -- the number has to be ASCII, or encoding the answer raises outside any handler
    if reqId.all fun c => c.toNat < 128 then
      { s with results := s.results ++
          [reqId ++ [Char.ofNat 46] ++ b64encode (encodeUtf8 (mailboxAnswer answer))] }
    else { s with running := false }

def MailboxLoop.step (s : MailboxLoop) : MailboxTurn → Option MailboxLoop
  | .poll body answer =>
    if s.running then
      match body with
      | none | some [] => some s
      | some body => some (s.request body answer)
    else none
  | .fail => if s.running then some { s with running := false } else none

example : mailboxCommand (ascii "7.aG9zdCBscw==\n") = (text "7", text "host ls") := by decide

structure BridgeArgs extends Args where
  /-- `args.mailbox` -/
  mailbox : Bool

inductive Transport
  | server (handlers : List Handler)
  | mailbox (loop : MailboxLoop)
  deriving DecidableEq

inductive ServeStep
  | accept (sends : Bool) (conn : Conn)
  /-- a turn of the thread of one connection -/
  | serve (thread : Nat) (turn : Turn)
  | loop (turn : MailboxTurn)

namespace Transport

/-- `main` -/
def start (args : BridgeArgs) : Transport := if args.mailbox then .mailbox .start else .server []

def step (args : BridgeArgs) : Transport → ServeStep → Option Transport
  | .server handlers, .accept sends conn =>
    some (.server (handlers ++ [handle args.toArgs sends conn]))
  | .server handlers, .serve thread turn => do
    let s ← handlers[thread]?
    let s' ← s.step args.toArgs turn
    some (.server (handlers.set thread s'))
  | .mailbox loop, .loop turn => (loop.step turn).map .mailbox
  | _, _ => none

def machine (args : BridgeArgs) : Machine Transport ServeStep := ⟨step args⟩

/-- Every call of `respond`, with all the commands its session has received by then. -/
def calls : Transport → List (List Text)
  | .server handlers => handlers.flatMap fun s => s.calls.map fun c => c.heard ++ [c.command]
  | .mailbox loop => loop.calls.map fun c => c.heard ++ [c.command]

/-- Every call of `respond` comes after the token command on the same session. -/
def Authorised (args : BridgeArgs) (b : Transport) : Prop :=
  ∀ secret, args.token = some secret → ∀ received ∈ b.calls, tokenCommand secret ∈ received

end Transport

def MailboxTurn.command : MailboxTurn → Option Text
  | .poll (some body) _ =>
    if body = [] ∨ (mailboxCommand body).2 = [] then none else some (mailboxCommand body).2
  | _ => none

def ServeStep.mailboxCommand : ServeStep → Option Text
  | .loop turn => turn.command
  | _ => none

/-- Nothing comes through the mailbox before the token command. -/
def TokenFirst (args : BridgeArgs) (steps : List ServeStep) : Prop :=
  ∀ secret, args.token = some secret →
    ∀ command ∈ (steps.filterMap ServeStep.mailboxCommand).head?, command = tokenCommand secret

section Connections

variable {args : Args} {secret : Text} {s : Handler} {turn : Turn}

/-- On this connection the flag and every call stand behind the token command. -/
structure Guarded (secret : Text) (s : Handler) : Prop where
  authorised : s.authorised = true → tokenCommand secret ∈ s.heard
  calls : ∀ c ∈ s.calls, tokenCommand secret ∈ c.heard

theorem guarded_send (m : Sent) (h : Guarded secret s) : Guarded secret (s.send turn m) := by
  unfold Handler.send
  split
  · exact ⟨h.authorised, h.calls⟩
  · exact ⟨h.authorised, h.calls⟩

theorem guarded_respond {c : Call} (h : Guarded secret s) (hc : tokenCommand secret ∈ c.heard) :
    Guarded secret (s.respond turn c) := by
  have hs : Guarded secret { s with calls := s.calls ++ [c] } := by
    refine ⟨h.authorised, fun d hd => ?_⟩
    rcases mem_append.mp hd with hd | hd
    · exact h.calls d hd
    · rw [mem_singleton.mp hd]
      exact hc
  unfold Handler.respond
  dsimp only
  split
  · exact guarded_send _ hs
  · exact ⟨hs.authorised, hs.calls⟩

theorem guarded_command {c : Call} (htoken : args.token = some secret) (h : Guarded secret s)
    (hc : c.heard = s.heard) : Guarded secret (s.command args turn c) := by
  unfold Handler.command
  split
  · exact guarded_send _ h
  · have hheard : Guarded secret { s with heard := s.heard ++ [c.command] } :=
      ⟨fun hauth => mem_append_left _ (h.authorised hauth), h.calls⟩
    rw [htoken]
    dsimp only
    split
    · next secret' hsecret hauth =>
      cases hsecret
      split
      · next hcommand =>
        exact guarded_send _ ⟨fun _ => by simp [← hcommand], h.calls⟩
      · exact guarded_send _ hheard
    · next hgate =>
      have hauth : s.authorised = true := by
        by_contra hauth
        exact hgate secret rfl (by simpa using hauth)
      exact guarded_respond hheard (hc ▸ h.authorised hauth)

theorem guarded_step {s' : Handler} (htoken : args.token = some secret) (h : Guarded secret s)
    (hs : s.step args turn = some s') : Guarded secret s' := by
  unfold Handler.step at hs
  split at hs
  · split at hs
    · rw [← some.inj hs]
      unfold Handler.frame
      split
      · exact ⟨h.authorised, h.calls⟩
      · split
        · exact guarded_send _ ⟨h.authorised, h.calls⟩
        · split
          · exact ⟨h.authorised, h.calls⟩
          · exact guarded_command htoken ⟨h.authorised, h.calls⟩ rfl
    · rw [← some.inj hs]
      exact ⟨h.authorised, h.calls⟩
    · rw [← some.inj hs]
      exact ⟨h.authorised, h.calls⟩
  · cases hs

theorem guarded_handle (htoken : args.token = some secret) (sends : Bool) (conn : Conn) :
    Guarded secret (handle args sends conn) := by
  have hfresh (conn : Conn) (running : Bool) :
      Guarded secret ⟨conn, args.token.isNone, running, [], [], []⟩ :=
    ⟨fun h => by simp [htoken] at h, fun c hc => by cases hc⟩
  unfold handle
  dsimp only
  split
  · exact guarded_send _ (hfresh _ _)
  · exact guarded_send _ (hfresh _ _)
  · exact hfresh _ _
  · exact hfresh _ _

end Connections

section Mailbox

/-- The calls of the loop stand behind the first command it has received. -/
structure Ordered (s : MailboxLoop) : Prop where
  first : ∀ command ∈ s.heard.head?, ∃ c ∈ s.calls, c.heard ++ [c.command] = [command]
  calls : ∀ c ∈ s.calls, ∃ command ∈ s.heard.head?, command ∈ c.heard ++ [c.command]

theorem ordered_request {s : MailboxLoop} {body : Bytes} {answer : Text ⊕ Text} (h : Ordered s) :
    Ordered (s.request body answer) := by
  have happend (command : Text) : Ordered { s with
      calls := s.calls ++ [⟨command, s.heard⟩], heard := s.heard ++ [command] } := by
    cases hheard : s.heard with
    | nil =>
      refine ⟨fun first hfirst => ?_, fun c hc => ?_⟩
      · cases hfirst
        exact ⟨⟨command, []⟩, by simp, rfl⟩
      · refine ⟨command, rfl, ?_⟩
        rcases mem_append.mp hc with hc | hc
        · obtain ⟨first, hfirst, -⟩ := h.calls c hc
          rw [hheard] at hfirst
          cases hfirst
        · rw [mem_singleton.mp hc]
          simp
    | cons first rest =>
      have hhead : first ∈ s.heard.head? := by rw [hheard]; rfl
      refine ⟨fun first' hfirst => ?_, fun c hc => ⟨first, rfl, ?_⟩⟩
      · cases hfirst
        obtain ⟨c, hc, heq⟩ := h.first first hhead
        exact ⟨c, mem_append_left _ hc, heq⟩
      · rcases mem_append.mp hc with hc | hc
        · obtain ⟨first', hfirst', hmem⟩ := h.calls c hc
          rw [hheard] at hfirst'
          cases hfirst'
          exact hmem
        · rw [mem_singleton.mp hc]
          simp
  unfold MailboxLoop.request
  dsimp only
  split
  · exact h
  · split
    · exact ⟨(happend _).first, (happend _).calls⟩
    · exact ⟨(happend _).first, (happend _).calls⟩

theorem request_heard (s : MailboxLoop) (body : Bytes) (answer : Text ⊕ Text) :
    (s.request body answer).heard = s.heard ++
      if (mailboxCommand body).2 = [] then [] else [(mailboxCommand body).2] := by
  unfold MailboxLoop.request
  dsimp only
  split
  · simp
  · split <;> rfl

theorem ordered_loop {s s' : MailboxLoop} {turn : MailboxTurn} (h : Ordered s)
    (hs : s.step turn = some s') : Ordered s' := by
  cases turn with
  | poll body answer =>
    simp only [MailboxLoop.step] at hs
    split at hs
    · split at hs
      · exact some.inj hs ▸ h
      · exact some.inj hs ▸ h
      · exact some.inj hs ▸ ordered_request h
    · cases hs
  | fail =>
    simp only [MailboxLoop.step] at hs
    split at hs
    · rw [← some.inj hs]
      exact ⟨h.first, h.calls⟩
    · cases hs

theorem loop_heard {s s' : MailboxLoop} {turn : MailboxTurn} (hs : s.step turn = some s') :
    s'.heard = s.heard ++ turn.command.toList := by
  cases turn with
  | poll body answer =>
    simp only [MailboxLoop.step] at hs
    split at hs
    · split at hs
      · cases hs
        simp [MailboxTurn.command]
      · cases hs
        simp [MailboxTurn.command]
      · next body hne =>
        rw [← some.inj hs, request_heard]
        have hbody : body ≠ [] := fun h => hne h
        by_cases hblank : (mailboxCommand body).2 = []
        · simp [MailboxTurn.command, hblank]
        · simp [MailboxTurn.command, hblank, hbody]
    · cases hs
  | fail =>
    simp only [MailboxLoop.step] at hs
    split at hs
    · cases hs
      simp [MailboxTurn.command]
    · cases hs

end Mailbox

namespace Transport

/-- The commands the mailbox loop has received. -/
def heard : Transport → List Text
  | server _ => []
  | mailbox loop => loop.heard

/-- The transport is the one `main` chose, and its sessions are in order. -/
def Sound (args : BridgeArgs) : Transport → Prop
  | server handlers => args.mailbox = false ∧
      ∀ secret, args.token = some secret → ∀ s ∈ handlers, Guarded secret s
  | mailbox loop => args.mailbox = true ∧ Ordered loop

theorem sound_start (args : BridgeArgs) : Sound args (start args) := by
  unfold start
  split
  · next hmailbox => exact ⟨hmailbox, by simp [MailboxLoop.start], by simp [MailboxLoop.start]⟩
  · next hmailbox => exact ⟨by simpa using hmailbox, by simp⟩

/-- Commands are run only behind the token on a server, and only in order on the mailbox. -/
theorem sound_step (args : BridgeArgs) (t : Transport) (a : ServeStep) (t' : Transport)
    (h : Sound args t) (hs : (machine args).step t a = some t') : Sound args t' := by
  cases t with
  | server handlers =>
    cases a with
    | accept sends conn =>
      cases hs
      refine ⟨h.1, fun secret htoken s hmem => ?_⟩
      rcases mem_append.mp hmem with hmem | hmem
      · exact h.2 secret htoken s hmem
      · rw [mem_singleton.mp hmem]
        exact guarded_handle htoken sends conn
    | serve thread turn =>
      obtain ⟨s, hget, hs⟩ := bind_eq_some_iff.mp hs
      obtain ⟨s', hstep, hs⟩ := bind_eq_some_iff.mp hs
      cases hs
      refine ⟨h.1, fun secret htoken r hmem => ?_⟩
      rcases mem_or_eq_of_mem_set hmem with hmem | rfl
      · exact h.2 secret htoken r hmem
      · exact guarded_step htoken (h.2 secret htoken s (mem_of_getElem? hget)) hstep
    | loop turn => cases hs
  | mailbox loop =>
    cases a with
    | accept sends conn => cases hs
    | serve thread turn => cases hs
    | loop turn =>
      obtain ⟨loop', hstep, rfl⟩ := map_eq_some_iff.mp hs
      exact ⟨h.1, ordered_loop h.2 hstep⟩

theorem heard_step (args : BridgeArgs) (t : Transport) (a : ServeStep) (t' : Transport)
    (hs : (machine args).step t a = some t') :
    t'.heard = t.heard ++ a.mailboxCommand.toList := by
  cases t with
  | server handlers =>
    cases a with
    | accept sends conn =>
      cases hs
      rfl
    | serve thread turn =>
      obtain ⟨s, -, hs⟩ := bind_eq_some_iff.mp hs
      obtain ⟨s', -, hs⟩ := bind_eq_some_iff.mp hs
      cases hs
      rfl
    | loop turn => cases hs
  | mailbox loop =>
    cases a with
    | accept sends conn => cases hs
    | serve thread turn => cases hs
    | loop turn =>
      obtain ⟨loop', hstep, rfl⟩ := map_eq_some_iff.mp hs
      exact loop_heard hstep

theorem authorised_mailbox_iff {args : BridgeArgs} {loop : MailboxLoop} (h : Ordered loop) :
    (mailbox loop).Authorised args ↔
      ∀ secret, args.token = some secret → ∀ command ∈ loop.heard.head?,
        command = tokenCommand secret := by
  constructor
  · intro hauth secret htoken command hcommand
    obtain ⟨c, hc, heq⟩ := h.first command hcommand
    have hmem := hauth secret htoken _ (mem_map_of_mem hc)
    rw [heq, mem_singleton] at hmem
    exact hmem.symm
  · intro hfirst secret htoken received hmem
    obtain ⟨c, hc, rfl⟩ := mem_map.mp hmem
    obtain ⟨command, hcommand, hin⟩ := h.calls c hc
    rw [← hfirst secret htoken command hcommand]
    exact hin

theorem authorised_server {args : BridgeArgs} {handlers : List Handler}
    (h : ∀ secret, args.token = some secret → ∀ s ∈ handlers, Guarded secret s) :
    (server handlers).Authorised args := by
  intro secret htoken received hmem
  obtain ⟨s, hs, hmem⟩ := mem_flatMap.mp hmem
  obtain ⟨c, hc, rfl⟩ := mem_map.mp hmem
  exact mem_append_left _ ((h secret htoken s hs).calls c hc)

end Transport

/-- Over every run of the bridge, with any interleaving of its connections, the calls of `respond`
are authorised exactly if the transport is the WebSocket server or the first command through the
mailbox is the token command. -/
theorem calls_authorised_iff (args : BridgeArgs) (steps : List ServeStep) (t : Transport)
    (h : (Transport.machine args).run (Transport.start args) steps = some t) :
    t.Authorised args ↔ args.mailbox = false ∨ TokenFirst args steps := by
  have hsound := (Transport.machine args).run_invariant (Transport.sound_step args)
    (Transport.sound_start args) h
  have hheard := (Transport.machine args).run_accumulates (Transport.heard_step args) h
  have hnone : (Transport.start args).heard = [] := by
    unfold Transport.start
    split <;> rfl
  rw [hnone, nil_append] at hheard
  cases t with
  | server handlers =>
    exact iff_of_true (Transport.authorised_server hsound.2) (.inl hsound.1)
  | mailbox loop =>
    rw [Transport.authorised_mailbox_iff hsound.2]
    have hloop : loop.heard = steps.filterMap ServeStep.mailboxCommand := hheard
    rw [hloop, hsound.1]
    simp [TokenFirst]

/-- A client that authorises itself and runs a command, over the mailbox. -/
def tokenSteps : List ServeStep :=
  [.loop (.poll (some (ascii "1.dG9rZW4gcw==")) (.inl [])),
    .loop (.poll (some (ascii "2.aG9zdCBscw==")) (.inl (text "a.txt")))]

theorem tokenSteps_authorised : ∃ t,
    (Transport.machine ⟨⟨some (text "s")⟩, true⟩).run (Transport.start ⟨⟨some (text "s")⟩, true⟩)
      tokenSteps = some t ∧ t.calls.length = 2 ∧ t.Authorised ⟨⟨some (text "s")⟩, true⟩ := by
  refine ⟨((Transport.machine ⟨⟨some (text "s")⟩, true⟩).run
    (Transport.start ⟨⟨some (text "s")⟩, true⟩) tokenSteps).get (by decide), by decide, by decide, ?_⟩
  apply (calls_authorised_iff ⟨⟨some (text "s")⟩, true⟩ tokenSteps _ (by decide)).mpr
  refine .inr fun secret hsecret command hcommand => ?_
  cases hsecret
  revert command
  decide

/-- With a token set, the mailbox runs a command of a client that has sent none. -/
theorem calls_not_always_authorised : ¬ ∀ (args : BridgeArgs) (steps : List ServeStep)
    (t : Transport), (Transport.machine args).run (Transport.start args) steps = some t →
      t.Authorised args := by
  intro hall
  have hauth := hall ⟨⟨some (text "s")⟩, true⟩
    [.loop (.poll (some (ascii "2.aG9zdCBscw==")) (.inl (text "a.txt")))]
    (.mailbox ⟨true, [⟨text "host ls", []⟩], [text "host ls"], [text "2.YS50eHQ="]⟩) (by decide)
  exact absurd (hauth (text "s") rfl [text "host ls"] (by decide)) (by decide)

end NikitaFirmware.Bridge
