import NikitaFirmware.Expansion.Codec
import NikitaFirmware.Foundations.Machine

/-!
# The worker of the expansion service

The worker thread (`applications/services/expansion/expansion_worker.c`) answers the frames of the
module, and the thread of the RPC session sends data frames through a callback. Both send a frame with
two calls of the send callback, each of them one step here. Timeouts and errors end the loop of the
worker at any time.
-/

namespace NikitaFirmware.Expansion
open Foundations List Option

/-- A frame whose first bytes are given, and which is zero behind them. -/
def Frame.ofBytes (bytes : Bytes) : Frame where
  bytes := (bytes ++ List.replicate frameSize 0).take frameSize
  length_eq := by
    rw [length_take, length_append, length_replicate]
    omega

def errorNone : UInt8 := 0x00

def errorBaudRate : UInt8 := 0x02

/-! The frames of `expansion_worker_send_heartbeat`, `expansion_worker_send_status_response` and
`expansion_worker_send_data_response`. -/

def heartbeatFrame : Frame := .ofBytes [1]
def statusFrame (error : UInt8) : Frame := .ofBytes [2, error]
def dataFrame (data : Bytes) : Frame := .ofBytes ([5, UInt8.ofNat data.length] ++ data)

inductive ControlCommand where
  | startRpc | stopRpc | enableOtg | disableOtg

def ControlCommand.ofByte : UInt8 → Option ControlCommand
  | 0 => some .startRpc
  | 1 => some .stopRpc
  | 2 => some .enableOtg
  | 3 => some .disableOtg
  | _ => none

inductive WorkerState where
  | handShake | connected | rpcActive
  deriving DecidableEq

/-- The next call of the send callback in `expansion_protocol_encode`. -/
inductive Call where
  | frame (frame : Frame)
  | checksum (frame : Frame)

def Call.data : Call → Bytes
  | .frame f => f.bytes.take f.encodedSize
  | .checksum f => [Expansion.checksum (f.bytes.take f.encodedSize)]

def Call.next : Call → Option Call
  | .frame f => some (.checksum f)
  | .checksum _ => none

/-- The frame of which the bytes were sent and the checksum was not. -/
def Call.underway : Call → Option Frame
  | .frame _ => none
  | .checksum f => some f

/-- `expansion_worker_rpc_send_callback` while it runs: the call it is about to make, and the data
that is left for further frames. -/
structure RpcSend where
  call : Option Call
  data : Bytes

/-- `ExpansionWorker`, with what its threads are about to do. The loop of the worker is `running`
until it is left; `closing` waits in `rpc_session_close` for the callback to return. -/
structure Worker where
  state : WorkerState
  running : Bool
  closing : Bool
  call : Option Call
  rpcSession : Bool
  txSemaphore : Bool
  rpcSend : Option RpcSend
  wire : Bytes

inductive Event where
  | receive (frame : Frame) (accepted : Bool)
  | exit
  | closed
  | call
  | rpcSend (data : Bytes)
  | rpcAcquire
  | rpcTimeout
  | rpcCall

namespace Worker
variable (s : Worker)

/-- `expansion_worker`, up to its first call. -/
def start : Worker where
  state := .handShake
  running := true
  closing := false
  call := some (.frame heartbeatFrame)
  rpcSession := false
  txSemaphore := false
  rpcSend := none
  wire := []

def sendFrame (frame : Frame) : Worker := { s with call := some (.frame frame) }

/-- `expansion_worker`, after its loop. -/
def exit : Worker := { s with running := false, closing := decide (s.state = .rpcActive) }

def rpcSessionOpen : Worker := { s with rpcSession := true, txSemaphore := true }

/-- `expansion_worker_handle_state_handshake`; the baud rate may be supported. -/
def handleStateHandshake (frame : Frame) (supported : Bool) : Worker :=
  if frame.type ≠ some .baudRate then s.exit
  else if supported then { s with state := .connected }.sendFrame (statusFrame errorNone)
  else s.sendFrame (statusFrame errorBaudRate)

def handleStateConnected (frame : Frame) (opened : Bool) : Worker :=
  match frame.type with
  | some .control =>
    match ControlCommand.ofByte (frame.bytes.getD 1 0) with
    | some .startRpc =>
      if opened then
        { s.rpcSessionOpen with state := .rpcActive }.sendFrame (statusFrame errorNone)
      else s.exit
    | some .enableOtg => s.sendFrame (statusFrame errorNone)
    | some .disableOtg => s.sendFrame (statusFrame errorNone)
    | _ => s.exit
  | some .heartbeat => s.sendFrame heartbeatFrame
  | _ => s.exit

/-- `expansion_worker_handle_state_rpc_active`; a stop waits for the callback, and what is fed to the
session is answered by its thread. -/
def handleStateRpcActive (frame : Frame) : Worker :=
  match frame.type with
  | some .data => s.sendFrame (statusFrame errorNone)
  | some .control =>
    match ControlCommand.ofByte (frame.bytes.getD 1 0) with
    | some .stopRpc => { s with state := .connected, closing := true }
    | _ => s.exit
  | some .status =>
    if frame.bytes.getD 1 0 ≠ errorNone then s.exit else { s with txSemaphore := true }
  | some .heartbeat => s.sendFrame heartbeatFrame
  | _ => s.exit

def handle (frame : Frame) (accepted : Bool) : Worker :=
  match s.state with
  | .handShake => s.handleStateHandshake frame accepted
  | .connected => s.handleStateConnected frame accepted
  | .rpcActive => s.handleStateRpcActive frame

/-- The worker is at the top of its loop. -/
def receives : Bool := s.running && !s.closing && s.call.isNone

/-- The callback goes on with the data that is left, or returns. -/
def rpcContinue (data : Bytes) : Worker :=
  { s with rpcSend := if data = [] then none else some ⟨none, data⟩ }

end Worker

/-- The worker and the thread of its RPC session. -/
def worker : Machine Worker Event where
  step s
    | .receive frame accepted => if s.receives then some (s.handle frame accepted) else none
    | .exit => if s.receives then some s.exit else none
    | .closed =>
      if s.closing ∧ s.call.isNone ∧ s.rpcSend.isNone then
        let s := { s with closing := false, rpcSession := false }
        if s.running then some (s.sendFrame (statusFrame errorNone)) else some s
      else none
    | .call =>
      match s.call with
      | some call => some { s with call := call.next, wire := s.wire ++ call.data }
      | none => none
    | .rpcSend data =>
      if s.rpcSession ∧ s.rpcSend.isNone then some (s.rpcContinue data) else none
    | .rpcAcquire =>
      match s.rpcSend with
      | some ⟨none, data⟩ =>
        if s.txSemaphore then
          some { s with
            txSemaphore := false
            rpcSend := some
              ⟨some (.frame (dataFrame (data.take maxDataSize))), data.drop maxDataSize⟩ }
        else none
      | _ => none
    | .rpcTimeout =>
      match s.rpcSend with
      | some ⟨none, _⟩ => some { s with rpcSend := none }
      | _ => none
    | .rpcCall =>
      match s.rpcSend with
      | some ⟨some call, data⟩ =>
        let s := { s with wire := s.wire ++ call.data }
        match call.next with
        | some next => some { s with rpcSend := some ⟨some next, data⟩ }
        | none => some (s.rpcContinue data)
      | _ => none

variable {s s' t : Worker}

def Worker.rpcCall (s : Worker) : Option Call := s.rpcSend.bind RpcSend.call

/-- The frames of which the bytes were sent and the checksum was not. -/
def Worker.underway (s : Worker) : List Frame :=
  (s.call.bind Call.underway).toList ++ (s.rpcCall.bind Call.underway).toList

def Call.begins : Call → Bool
  | .frame _ => true
  | .checksum _ => false

/-- A frame is begun when none is underway. -/
def InTurn (s : Worker) : Event → Prop
  | .call => s.call.any Call.begins → s.underway = []
  | .rpcCall => s.rpcCall.any Call.begins → s.underway = []
  | _ => True

instance decidableInTurn (s : Worker) : (ev : Event) → Decidable (InTurn s ev)
  | .call => inferInstanceAs (Decidable (s.call.any Call.begins → s.underway = []))
  | .rpcCall => inferInstanceAs (Decidable (s.rpcCall.any Call.begins → s.underway = []))
  | .receive _ _ => isTrue trivial
  | .exit => isTrue trivial
  | .closed => isTrue trivial
  | .rpcSend _ => isTrue trivial
  | .rpcAcquire => isTrue trivial
  | .rpcTimeout => isTrue trivial

/-- The call sends a well formed frame. -/
def Call.Proper : Call → Prop
  | .frame f => f.WellFormed
  | .checksum f => f.WellFormed

/-- The wire carries whole frames, but for the checksum of the one that is underway. -/
def Framed (s : Worker) : Prop :=
  ∃ frames : List Frame, (∀ f ∈ frames, f.WellFormed) ∧
    (s.underway = [] ∧ s.wire = frames.flatMap Frame.encoded ∨
      ∃ f, s.underway = [f] ∧ s.wire = frames.flatMap Frame.encoded ++ f.bytes.take f.encodedSize)

/-- What is sent are frames, and so far they are whole. -/
structure Sends (s : Worker) : Prop where
  call : ∀ call, s.call = some call → call.Proper
  rpcCall : ∀ call, s.rpcCall = some call → call.Proper
  framed : Framed s

theorem heartbeatFrame_wellFormed : heartbeatFrame.WellFormed := by decide

theorem statusFrame_wellFormed (error : UInt8) : (statusFrame error).WellFormed :=
  ⟨by rw [show (statusFrame error).type = some .status from rfl]; exact some_ne_none _,
    fun h => by rw [show (statusFrame error).type = some .status from rfl] at h; cases h⟩

theorem dataFrame_wellFormed {data : Bytes} (h : data.length ≤ maxDataSize) :
    (dataFrame data).WellFormed := by
  have htype : (dataFrame data).type = some .data := rfl
  have hsize : (dataFrame data).dataSize = data.length := by
    show (UInt8.ofNat data.length).toNat = data.length
    have hmax : maxDataSize = 64 := rfl
    rw [UInt8.toNat_ofNat']
    omega
  exact ⟨htype ▸ some_ne_none _, fun _ => hsize ▸ h⟩

theorem Framed.call {call : Call} {other : List Frame} (h : Framed s) (hproper : call.Proper)
    (hturn : call.begins → s.underway = [])
    (hs : s.underway.Perm (call.underway.toList ++ other))
    (hs' : s'.underway.Perm ((call.next.bind Call.underway).toList ++ other))
    (hwire : s'.wire = s.wire ++ call.data) : Framed s' := by
  obtain ⟨frames, hframes, hcase⟩ := h
  cases call with
  | frame f =>
    have hnone : s.underway = [] := hturn rfl
    have hother : other = [] := by
      rw [hnone] at hs
      exact nil_perm.mp hs
    have hwhole : s.wire = frames.flatMap Frame.encoded := by
      rcases hcase with ⟨-, hwire⟩ | ⟨g, hg, -⟩
      · exact hwire
      · rw [hnone] at hg
        cases hg
    subst hother
    exact ⟨frames, hframes, .inr ⟨f, perm_singleton.mp hs', by rw [hwire, hwhole]; rfl⟩⟩
  | checksum f =>
    rcases hcase with ⟨hnone, -⟩ | ⟨g, hg, hpart⟩
    · rw [hnone] at hs
      cases nil_perm.mp hs
    · rw [hg] at hs
      obtain ⟨hfg, hother⟩ := cons_eq_cons.mp (perm_singleton.mp hs.symm)
      subst hfg hother
      have hwell : f.WellFormed := hproper
      refine ⟨frames ++ [f], fun k hk => ?_, .inl ⟨perm_nil.mp hs', ?_⟩⟩
      · rcases mem_append.mp hk with hk | hk
        · exact hframes k hk
        · exact mem_singleton.mp hk ▸ hwell
      · rw [hwire, hpart, flatMap_append, flatMap_singleton, encoded_eq hwell, append_assoc]
        rfl

/-- What a step that transmits nothing keeps. -/
structure Silent (s s' : Worker) : Prop where
  wire : s'.wire = s.wire
  underway : s'.underway = s.underway
  call : ∀ call, s'.call = some call → call.Proper
  rpcCall : ∀ call, s'.rpcCall = some call → call.Proper

theorem Silent.sends (h : Silent s s') (hs : Sends s) : Sends s' := by
  refine ⟨h.call, h.rpcCall, ?_⟩
  obtain ⟨frames, hframes, hcase⟩ := hs.framed
  refine ⟨frames, hframes, ?_⟩
  rw [h.wire, h.underway]
  exact hcase

theorem Silent.of_call (hs : Sends s) (hnone : s.call = none) (hwire : s'.wire = s.wire)
    (hrpc : s'.rpcSend = s.rpcSend)
    (hcall : s'.call = none ∨ ∃ f : Frame, f.WellFormed ∧ s'.call = some (.frame f)) :
    Silent s s' := by
  have hrpcCall : s'.rpcCall = s.rpcCall := by rw [Worker.rpcCall, Worker.rpcCall, hrpc]
  refine ⟨hwire, ?_, fun call hc => ?_, fun call hc => hs.rpcCall call (hrpcCall ▸ hc)⟩
  · rw [Worker.underway, Worker.underway, hrpcCall, hnone]
    rcases hcall with hcall | ⟨f, -, hcall⟩
    · rw [hcall]
    · rw [hcall]
      rfl
  · rcases hcall with hcall | ⟨f, hwell, hcall⟩
    · rw [hcall] at hc
      cases hc
    · rw [hcall] at hc
      cases hc
      exact hwell

theorem handle_silent {frame : Frame} {accepted : Bool} (hs : Sends s) (hnone : s.call = none) :
    Silent s (s.handle frame accepted) := by
  have hexit : Silent s s.exit := .of_call hs hnone rfl rfl (.inl hnone)
  have hbeat : ∀ state semaphore session, Silent s ({ s with
      state := state, txSemaphore := semaphore, rpcSession := session }.sendFrame heartbeatFrame) :=
    fun _ _ _ => .of_call hs hnone rfl rfl (.inr ⟨_, heartbeatFrame_wellFormed, rfl⟩)
  have hstatus : ∀ state semaphore session error, Silent s ({ s with
      state := state, txSemaphore := semaphore, rpcSession := session }.sendFrame
        (statusFrame error)) :=
    fun _ _ _ error => .of_call hs hnone rfl rfl (.inr ⟨_, statusFrame_wellFormed error, rfl⟩)
  unfold Worker.handle
  split
  · unfold Worker.handleStateHandshake
    split
    · exact hexit
    split <;> exact hstatus ..
  · unfold Worker.handleStateConnected
    split
    · split
      · split
        · exact hstatus ..
        · exact hexit
      · exact hstatus ..
      · exact hstatus ..
      · exact hexit
    · exact hbeat ..
    · exact hexit
  · unfold Worker.handleStateRpcActive
    split
    · exact hstatus ..
    · split
      · exact .of_call hs hnone rfl rfl (.inl hnone)
      · exact hexit
    · split
      · exact hexit
      · exact .of_call hs hnone rfl rfl (.inl hnone)
    · exact hbeat ..
    · exact hexit

theorem Silent.of_rpcCall (hs : Sends s) (hnone : s.rpcCall = none) (hwire : s'.wire = s.wire)
    (hcall : s'.call = s.call)
    (hrpc : s'.rpcCall = none ∨ ∃ f : Frame, f.WellFormed ∧ s'.rpcCall = some (.frame f)) :
    Silent s s' := by
  refine ⟨hwire, ?_, fun call hc => hs.call call (hcall ▸ hc), fun call hc => ?_⟩
  · rw [Worker.underway, Worker.underway, hcall, hnone]
    rcases hrpc with hrpc | ⟨f, -, hrpc⟩
    · rw [hrpc]
    · rw [hrpc]
      rfl
  · rcases hrpc with hrpc | ⟨f, hwell, hrpc⟩
    · rw [hrpc] at hc
      cases hc
    · rw [hrpc] at hc
      cases hc
      exact hwell

theorem rpcContinue_rpcCall (s : Worker) (data : Bytes) : (s.rpcContinue data).rpcCall = none := by
  rw [Worker.rpcCall, Worker.rpcContinue]
  split <;> rfl

theorem Call.Proper.next {call next : Call} (h : call.Proper) (hnext : call.next = some next) :
    next.Proper := by
  cases call with
  | frame f => cases hnext; exact h
  | checksum f => cases hnext

theorem call_eq_none_of_receives (h : s.receives) : s.call = none := by
  rw [Worker.receives, Bool.and_eq_true, isNone_iff_eq_none] at h
  exact h.2

/-- In turn, the worker begins a frame only when the one before is on the wire as a whole. -/
theorem step_sends {ev : Event} (hs : Sends s) (hturn : InTurn s ev)
    (hstep : worker.step s ev = some s') : Sends s' := by
  cases ev with
  | receive frame accepted =>
    obtain ⟨hreceives, hs'⟩ := ite_none_right_eq_some.mp hstep
    have hnone : s.call = none := call_eq_none_of_receives hreceives
    cases hs'
    exact (handle_silent hs hnone).sends hs
  | exit =>
    obtain ⟨hreceives, hs'⟩ := ite_none_right_eq_some.mp hstep
    have hnone : s.call = none := call_eq_none_of_receives hreceives
    cases hs'
    refine Silent.sends ?_ hs
    exact .of_call hs hnone rfl rfl (.inl hnone)
  | closed =>
    obtain ⟨⟨-, hcall, -⟩, hs'⟩ := ite_none_right_eq_some.mp hstep
    have hnone : s.call = none := isNone_iff_eq_none.mp hcall
    simp only at hs'
    split at hs'
    · cases hs'
      refine Silent.sends ?_ hs
      exact .of_call hs hnone rfl rfl (.inr ⟨_, statusFrame_wellFormed errorNone, rfl⟩)
    · cases hs'
      refine Silent.sends ?_ hs
      exact .of_call hs hnone rfl rfl (.inl hnone)
  | call =>
    simp only [worker] at hstep
    split at hstep
    · -- a frame is begun only in turn, and goes on otherwise
      next call hcall =>
      cases hstep
      have hproper := hs.call call hcall
      refine ⟨fun next hnext => hproper.next hnext, hs.rpcCall,
        hs.framed.call hproper ?_ ?_ (.refl _) rfl⟩
      · intro hbegins
        exact hturn (by rw [hcall]; exact hbegins)
      · rw [Worker.underway, hcall]
        rfl
    · cases hstep
  | rpcSend data =>
    obtain ⟨⟨-, hidle⟩, hs'⟩ := ite_none_right_eq_some.mp hstep
    cases hs'
    have hnone : s.rpcCall = none := by
      rw [Worker.rpcCall, isNone_iff_eq_none.mp hidle]
      rfl
    refine Silent.sends ?_ hs
    exact .of_rpcCall hs hnone rfl rfl (.inl (rpcContinue_rpcCall s data))
  | rpcAcquire =>
    simp only [worker] at hstep
    split at hstep
    · next data hsend =>
      obtain ⟨-, hs'⟩ := ite_none_right_eq_some.mp hstep
      cases hs'
      have hnone : s.rpcCall = none := by
        rw [Worker.rpcCall, hsend]
        rfl
      have hdata : (data.take maxDataSize).length ≤ maxDataSize := length_take_le ..
      refine Silent.sends ?_ hs
      exact .of_rpcCall hs hnone rfl rfl (.inr ⟨_, dataFrame_wellFormed hdata, rfl⟩)
    · cases hstep
  | rpcTimeout =>
    simp only [worker] at hstep
    split at hstep
    · next data hsend =>
      cases hstep
      have hnone : s.rpcCall = none := by
        rw [Worker.rpcCall, hsend]
        rfl
      refine Silent.sends ?_ hs
      exact .of_rpcCall hs hnone rfl rfl (.inl rfl)
    · cases hstep
  | rpcCall =>
    simp only [worker] at hstep
    split at hstep
    · next call data hsend =>
      have hcall : s.rpcCall = some call := by
        rw [Worker.rpcCall, hsend]
        rfl
      have hproper := hs.rpcCall call hcall
      have hbegin : call.begins → s.underway = [] := by
        intro hbegins
        exact hturn (by rw [hcall]; exact hbegins)
      have hunder : s.underway.Perm
          (call.underway.toList ++ (s.call.bind Call.underway).toList) := by
        rw [Worker.underway, hcall]
        exact perm_append_comm
      cases hnext : call.next with
      | some next =>
        rw [hnext] at hstep
        cases hstep
        refine ⟨hs.call, fun call' hc => ?_, hs.framed.call hproper hbegin hunder ?_ rfl⟩
        · cases hc
          exact hproper.next hnext
        · rw [hnext, Worker.underway]
          exact perm_append_comm
      | none =>
        rw [hnext] at hstep
        cases hstep
        refine ⟨hs.call, fun call' hc => ?_, hs.framed.call hproper hbegin hunder ?_ rfl⟩
        · rw [rpcContinue_rpcCall] at hc
          cases hc
        · rw [hnext, Worker.underway, rpcContinue_rpcCall]
          exact perm_append_comm
    · cases hstep

theorem start_sends : Sends Worker.start where
  call call hcall := by
    cases hcall
    exact heartbeatFrame_wellFormed
  rpcCall call hcall := by cases hcall
  framed := ⟨[], forall_mem_nil _, .inl ⟨rfl, rfl⟩⟩

/-- Where every frame is begun in its turn, the wire carries whole frames with their checksums. -/
theorem wire_framed (evs : List Event) (t : Worker) (hturn : worker.Meets InTurn Worker.start evs)
    (hrun : worker.run Worker.start evs = some t) : Framed t :=
  (worker.run_invariant_of_meets (fun _ _ _ hs hok hstep => step_sends hs hok hstep) start_sends
    hturn hrun).framed

/-- The module connects and begins a session. -/
def connect : List Event :=
  [.call, .call, .receive (.ofBytes [3, 0x80, 0x25, 0, 0]) true, .call, .call,
    .receive (.ofBytes [4, 0]) true, .call, .call]

/-- The session sends a data frame, and then the worker answers a heartbeat. -/
def dataThenHeartbeat : List Event :=
  connect ++ [.rpcSend [7], .rpcAcquire, .rpcCall, .rpcCall, .receive heartbeatFrame true, .call, .call]

theorem dataThenHeartbeat_framed :
    ∃ t, worker.run Worker.start dataThenHeartbeat = some t ∧ Framed t :=
  ⟨_, rfl, wire_framed dataThenHeartbeat _ (by decide) rfl⟩

/-- The worker answers a heartbeat before the data frame has its checksum. -/
def heartbeatWithinData : List Event :=
  connect ++ [.rpcSend [7], .rpcAcquire, .rpcCall, .receive heartbeatFrame true, .call, .call, .rpcCall]

theorem flatMap_of_encoded_append {frames : List Frame} {rest : Bytes} {f : Frame}
    (hf : f.WellFormed) (hframes : ∀ g ∈ frames, g.WellFormed)
    (h : f.encoded ++ rest = frames.flatMap Frame.encoded) :
    ∃ frames' : List Frame, (∀ g ∈ frames', g.WellFormed) ∧ rest = frames'.flatMap Frame.encoded := by
  cases frames with
  | nil =>
    have hlength := length_encoded hf
    rw [flatMap_nil] at h
    rw [(append_eq_nil_iff.mp h).1] at hlength
    cases hlength
  | cons g frames =>
    rw [forall_mem_cons] at hframes
    rw [flatMap_cons] at h
    exact ⟨frames, hframes.2, (encoded_append_inj hf hframes.1 h).2⟩

/-- The heartbeat stands where the checksum of the data frame belongs. -/
theorem heartbeatWithinData_not_framed :
    ∃ t, worker.run Worker.start heartbeatWithinData = some t ∧ ¬ Framed t := by
  refine ⟨_, rfl, ?_⟩
  rintro ⟨frames, hframes, ⟨-, hwire⟩ | ⟨f, hf, -⟩⟩
  · have hwire' : heartbeatFrame.encoded ++ ((statusFrame 0).encoded ++ ((statusFrame 0).encoded ++
        (tail (dataFrame [7]) 0 ++ ([1] ++ [1, 3])))) = frames.flatMap Frame.encoded := hwire
    obtain ⟨frames, hframes, hwire⟩ :=
      flatMap_of_encoded_append heartbeatFrame_wellFormed hframes hwire'
    obtain ⟨frames, hframes, hwire⟩ :=
      flatMap_of_encoded_append (statusFrame_wellFormed 0) hframes hwire
    obtain ⟨frames, hframes, hwire⟩ :=
      flatMap_of_encoded_append (statusFrame_wellFormed 0) hframes hwire
    cases frames with
    | nil => cases hwire
    | cons g frames =>
      have hdata : (dataFrame [7]).WellFormed := by decide
      exact encoded_ne_of_checksum (hframes g mem_cons_self) hdata (by decide) hwire.symm
  · cases hf

end NikitaFirmware.Expansion
