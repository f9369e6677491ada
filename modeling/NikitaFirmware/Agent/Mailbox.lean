import NikitaFirmware.Foundations.Bytes
import NikitaFirmware.Foundations.Machine

/-!
# The agent's request format and dispatcher

`agentGet` reads one `key: value` line, `agentDispatch` runs one request and
`agentRun` prefixes the body with the `ok:` line. What the platform answers during a
request is a `Platform` value; what the request does to the device is a list of `Effect`s.
-/

namespace NikitaFirmware.Agent
open Foundations Option

/-- The answers the firmware below the dispatcher gives while one request runs. -/
structure Platform where
  /-- `furi_hal_version_get_name_ptr`, where it is not NULL. -/
  name : Option Bytes
  firmware : Bytes
  heapFree : Nat
  /-- Free bytes reported for `/ext`. -/
  sdFree : Nat
  usbLocked : Bool
  usbSetConfig : Bool
  /-- The return code of `nikita_agent_install_bridge`. -/
  installBridge : Nat
  deriving DecidableEq

inductive LedSequence
  | resetRgb
  | onlyRed
  | onlyGreen
  | onlyBlue
  deriving DecidableEq

inductive Effect
  | led (sequence : LedSequence)
  | vibro
  | blinkStop
  | powerReset
  | typeText (text layout : Bytes)
  | installBridge (os layout : Bytes) (openTerm : Bool)
  deriving DecidableEq

def newline : UInt8 := 10
def space : UInt8 := 32
def tab : UInt8 := 9
def carriageReturn : UInt8 := 13
def colon : UInt8 := 58

/-- The value of a line that starts with `key:`, trimmed and cut to `outsz - 1` bytes. -/
def lineValue (key : Bytes) (outsz : Nat) (line : Bytes) : Option Bytes :=
  if (key ++ [colon]).isPrefixOf line then
    let v := (line.drop (key.length + 1)).dropWhile fun b => b == space || b == tab
    some ((v.rdropWhile fun b => b == carriageReturn || b == space).take (outsz - 1))
  else none

/-- `agent_get`: the value of the first line with this key. An empty last line, which the
source does not visit, matches no key. -/
def agentGet (req key : Bytes) (outsz : Nat) : Option Bytes :=
  (req.splitOn newline).findSome? (lineValue key outsz)

def agentLed (color : Bytes) : LedSequence :=
  if color = ascii "red" then .onlyRed
  else if color = ascii "green" then .onlyGreen
  else if color = ascii "blue" then .onlyBlue
  else .resetRgb

/-- What one request leaves: the `ok` flag, the body and the effects in order. -/
structure Outcome where
  ok : Bool
  body : Bytes
  effects : List Effect

def sysInfo (p : Platform) : Bytes :=
  ascii "name: " ++ p.name.getD (ascii "Nikita") ++ ascii "\nfirmware: " ++ p.firmware ++
    ascii "\nheap_free: " ++ decimal p.heapFree ++ ascii "\n" ++
    ascii "sd_free_kb: " ++ decimal (p.sdFree / 1024) ++ ascii "\n"

def hidType (p : Platform) (req : Bytes) : Outcome :=
  match agentGet req (ascii "text") 512 with
  | none => ⟨false, ascii "data: hid.type needs text:\n", []⟩
  | some text =>
    let layout := (agentGet req (ascii "layout") 24).getD []
    if p.usbLocked || !p.usbSetConfig then ⟨false, ascii "data: USB busy/locked\n", []⟩
    else ⟨true, ascii "data: typed\n", [.typeText text layout]⟩

def bridgeInstall (p : Platform) (req : Bytes) : Outcome :=
  let os := (agentGet req (ascii "os") 12).getD (ascii "mac")
  let layout := (agentGet req (ascii "layout") 24).getD []
  let openTerm := match agentGet req (ascii "open") 8 with
    | some v => !(v == ascii "no" || v == ascii "0")
    | none => true
  let effects := [Effect.installBridge os layout openTerm]
  if p.installBridge = 0 then
    ⟨true, ascii "data: bridge install typed for " ++ os ++ ascii " (layout " ++
      (if layout = [] then ascii "en-US" else layout) ++ ascii ")\n", effects⟩
  else
    ⟨false, ascii "data: install failed (" ++
      (if p.installBridge = 1 then ascii "USB locked" else ascii "USB switch failed") ++
      ascii ")\n", effects⟩

def agentDispatch (p : Platform) (req : Bytes) : Outcome :=
  match agentGet req (ascii "op") 48 with
  | none => ⟨false, ascii "data: no op\n", []⟩
  | some op =>
    if op = ascii "ping" then ⟨true, ascii "data: pong\n", []⟩
    else if op = ascii "sys.info" then ⟨true, sysInfo p, []⟩
    else if op = ascii "sys.led" then
      let color := (agentGet req (ascii "color") 16).getD (ascii "off")
      ⟨true, ascii "data: led " ++ color ++ ascii "\n", [.led (agentLed color)]⟩
    else if op = ascii "sys.vibro" then ⟨true, ascii "data: vibro\n", [.vibro]⟩
    else if op = ascii "sys.notify" then
      ⟨true, ascii "data: notified\n", [.led .onlyBlue, .vibro, .blinkStop]⟩
    else if op = ascii "sys.reboot" then ⟨true, ascii "data: rebooting\n", [.powerReset]⟩
    else if op = ascii "hid.type" then hidType p req
    else if op = ascii "bridge.install" then bridgeInstall p req
    else ⟨false, ascii "data: unknown op '" ++ op ++ ascii "'\n", []⟩

def Outcome.response (o : Outcome) : Bytes :=
  ascii "ok: " ++ decimal (if o.ok then 1 else 0) ++ ascii "\n" ++ o.body

/-- `agent_run`: the full response text, or `none` where the device resets before the
dispatcher returns. -/
def agentRun (p : Platform) (req : Bytes) : Option Bytes :=
  let o := agentDispatch p req
  if Effect.powerReset ∈ o.effects then none else some o.response

/-- The sentinel a client waits past. -/
def pendingText : Bytes := ascii "pending\n"

example : agentGet (ascii "op: sys.led\r\ncolor:  magenta \n") (ascii "color") 16 =
    some (ascii "magenta") := by decide

/-!
## The agent's file mailbox

A step is one storage call of the agent or one whole-file access of a client. A path that is open
cannot be opened again: the label of an access to it is not enabled. Labels carry what the storage
may do. Removing the request is taken to succeed.
-/

def reqMax : Nat := 2048

def openAttempts : Nat := 6

def writeAttempts : Nat := 40

/-- The contents of the request file, with the number of the write that left them. -/
structure Request where
  id : Nat
  content : Bytes
  deriving DecidableEq

/-- The text the agent works on, as read into its buffer. -/
structure Taken where
  id : Nat
  text : Bytes
  deriving DecidableEq

/-- What follows a call of `agent_write_res_bytes`. -/
inductive Next
  | dispatch (req : Taken)
  | finish
  deriving DecidableEq

/-- The arguments and the loop counter of `agent_write_res_bytes`. -/
structure ResWrite where
  data : Bytes
  attempt : Nat
  next : Next
  deriving DecidableEq

/-- Where the agent thread stands; each constructor names the storage call it is about to
make, `run` the call of `agent_run`. -/
inductive Pc
  | idle
  | reqOpen (attempt : Nat)
  | reqExists (attempt : Nat)
  | reqRead
  | reqClose (req : Taken)
  | reqRemove (req : Taken)
  | resOpen (w : ResWrite)
  | resWrite (w : ResWrite)
  | resClose (w : ResWrite) (ok : Bool)
  | run (req : Taken)
  | halted
  deriving DecidableEq

/-- One call of `agent_run`: the request it was given and the response it produced. -/
structure Run where
  req : Taken
  response : Option Bytes
  deriving DecidableEq

structure State where
  req : Option Request
  res : Option Bytes
  pc : Pc
  /-- Every content a client has written, in order. -/
  written : List Bytes
  /-- Every call of `agent_run` made by the mailbox, in order. -/
  runs : List Run
  deriving DecidableEq

/-- The state `nikita_agent_on_system_start` hands to the thread: the stale request is
gone and `agent_res_pending` is about to run on whatever the last boot left. -/
def start (res : Option Bytes) : State :=
  ⟨none, res, .resOpen ⟨pendingText, 0, .finish⟩, [], []⟩

inductive Action
  | clientWrite (content : Bytes)
  | clientRead
  | poll
  | openReq (ok : Bool)
  | existsReq (found : Bool)
  | readReq (n : Nat)
  | closeReq
  | removeReq
  | openRes (ok : Bool)
  | writeRes (n : Nat)
  | closeRes
  | runReq (p : Platform)
  deriving DecidableEq

def Pc.holdsReq : Pc → Bool
  | .reqRead | .reqClose _ => true
  | _ => false

def Pc.holdsRes : Pc → Bool
  | .resWrite _ | .resClose _ _ => true
  | _ => false

/-- The text that `agent_poll_mailbox` passes to `agent_run` for a request file. -/
def requestText (content : Bytes) : Bytes := cstr (content.take (reqMax - 1))

def Next.pc : Next → Pc
  | .dispatch req => .run req
  | .finish => .idle

/-- The end of a failed attempt of `agent_write_res_bytes`: the next one, or the return. -/
def ResWrite.retry (w : ResWrite) : Pc :=
  if w.attempt + 1 < writeAttempts then .resOpen { w with attempt := w.attempt + 1 } else w.next.pc

def step (s : State) (a : Action) : Option State :=
  match a, s.pc with
  | .clientWrite content, pc =>
    if pc.holdsReq then none
    else some { s with req := some ⟨s.written.length, content⟩, written := s.written ++ [content] }
  | .clientRead, pc => if pc.holdsRes then none else some s
  | .poll, .idle => some { s with pc := .reqOpen 0 }
  | .openReq true, .reqOpen _ => if s.req.isSome then some { s with pc := .reqRead } else none
  | .openReq false, .reqOpen k => some { s with pc := .reqExists k }
  | .existsReq false, .reqExists _ => some { s with pc := .idle }
  | .existsReq true, .reqExists k =>
    if s.req.isNone then none
    else some { s with pc := if k + 1 < openAttempts then .reqOpen (k + 1) else .idle }
  | .readReq n, .reqRead =>
    match s.req with
    | some r =>
      if n ≤ (r.content.take (reqMax - 1)).length then
        some { s with pc := .reqClose ⟨r.id, cstr (r.content.take n)⟩ }
      else none
    | none => none
  | .closeReq, .reqClose req => some { s with pc := .reqRemove req }
  | .removeReq, .reqRemove req =>
    some { s with req := none, pc := .resOpen ⟨pendingText, 0, .dispatch req⟩ }
  -- `FSOM_CREATE_ALWAYS` truncates the file as it opens it
  | .openRes true, .resOpen w => some { s with res := some [], pc := .resWrite w }
  | .openRes false, .resOpen w => some { s with pc := w.retry }
  | .writeRes n, .resWrite w =>
    if n ≤ w.data.length then
      some { s with res := some (w.data.take n), pc := .resClose w (n == w.data.length) }
    else none
  | .closeRes, .resClose w ok => some { s with pc := if ok then w.next.pc else w.retry }
  | .runReq p, .run req =>
    let response := agentRun p req.text
    some { s with
      runs := s.runs ++ [⟨req, response⟩]
      pc := match response with
        | some data => .resOpen ⟨data, 0, .finish⟩
        | none => .halted }
  | _, _ => none

def machine : Machine State Action := ⟨step⟩

/-- The steps of the mailbox, one constructor for each storage call and outcome. -/
inductive Fires : State → Action → State → Prop
  | clientWrite {s content} (hopen : s.pc.holdsReq = false) : Fires s (.clientWrite content)
        { s with req := some ⟨s.written.length, content⟩, written := s.written ++ [content] }
  | clientRead {s} (hopen : s.pc.holdsRes = false) : Fires s .clientRead s
  | poll {s} (hpc : s.pc = .idle) : Fires s .poll { s with pc := .reqOpen 0 }
  | openReq {s k} (hpc : s.pc = .reqOpen k) (hreq : s.req.isSome) :
      Fires s (.openReq true) { s with pc := .reqRead }
  | openReqFail {s k} (hpc : s.pc = .reqOpen k) :
      Fires s (.openReq false) { s with pc := .reqExists k }
  | missing {s k} (hpc : s.pc = .reqExists k) : Fires s (.existsReq false) { s with pc := .idle }
  | busy {s k} (hpc : s.pc = .reqExists k) (hreq : s.req.isSome) : Fires s (.existsReq true)
        { s with pc := if k + 1 < openAttempts then .reqOpen (k + 1) else .idle }
  | readReq {s r n} (hpc : s.pc = .reqRead) (hreq : s.req = some r)
      (hn : n ≤ (r.content.take (reqMax - 1)).length) :
      Fires s (.readReq n) { s with pc := .reqClose ⟨r.id, cstr (r.content.take n)⟩ }
  | closeReq {s req} (hpc : s.pc = .reqClose req) :
      Fires s .closeReq { s with pc := .reqRemove req }
  | removeReq {s req} (hpc : s.pc = .reqRemove req) : Fires s .removeReq
        { s with req := none, pc := .resOpen ⟨pendingText, 0, .dispatch req⟩ }
  | openRes {s w} (hpc : s.pc = .resOpen w) :
      Fires s (.openRes true) { s with res := some [], pc := .resWrite w }
  | openResFail {s w} (hpc : s.pc = .resOpen w) : Fires s (.openRes false) { s with pc := w.retry }
  | writeRes {s w n} (hpc : s.pc = .resWrite w) (hn : n ≤ w.data.length) : Fires s (.writeRes n)
        { s with res := some (w.data.take n), pc := .resClose w (n == w.data.length) }
  | closeRes {s w ok} (hpc : s.pc = .resClose w ok) :
      Fires s .closeRes { s with pc := if ok then w.next.pc else w.retry }
  | answer {s req p data} (hpc : s.pc = .run req) (hrun : agentRun p req.text = some data) :
      Fires s (.runReq p)
        { s with runs := s.runs ++ [⟨req, some data⟩], pc := .resOpen ⟨data, 0, .finish⟩ }
  | reboot {s req p} (hpc : s.pc = .run req) (hrun : agentRun p req.text = none) :
      Fires s (.runReq p) { s with runs := s.runs ++ [⟨req, none⟩], pc := .halted }

/-- Inversion: what one action of the agent or its client can do to the mailbox. -/
theorem fires_of_step {s s' : State} {a : Action} (h : machine.step s a = some s') :
    Fires s a s' := by
  obtain ⟨req, res, pc, written, runs⟩ := s
  simp only [machine, step] at h
  split at h
  · split at h
    · cases h
    · next hopen => exact some.inj h ▸ .clientWrite (by simpa using hopen)
  · split at h
    · cases h
    · next hopen => exact some.inj h ▸ .clientRead (by simpa using hopen)
  · exact some.inj h ▸ .poll rfl
  · split at h
    · next hreq => exact some.inj h ▸ .openReq rfl hreq
    · cases h
  · exact some.inj h ▸ .openReqFail rfl
  · exact some.inj h ▸ .missing rfl
  · split at h
    · cases h
    · next hreq =>
      exact some.inj h ▸ .busy rfl (by simpa [isSome_iff_ne_none] using hreq)
  · split at h
    · split at h
      · next hn => exact some.inj h ▸ .readReq rfl rfl hn
      · cases h
    · cases h
  · exact some.inj h ▸ .closeReq rfl
  · exact some.inj h ▸ .removeReq rfl
  · exact some.inj h ▸ .openRes rfl
  · exact some.inj h ▸ .openResFail rfl
  · split at h
    · next hn => exact some.inj h ▸ .writeRes rfl hn
    · cases h
  · exact some.inj h ▸ .closeRes rfl
  · next p req =>
    rw [← some.inj h]
    cases hrun : agentRun p req.text with
    | some data => exact .answer rfl hrun
    | none => exact .reboot rfl hrun
  · cases h

end NikitaFirmware.Agent
