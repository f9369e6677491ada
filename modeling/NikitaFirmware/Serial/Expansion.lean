import NikitaFirmware.Foundations.Machine

/-!
# The serial control thread

`furi_hal_serial_control.c` hands out the two serial handles and owns the detection callback
of the expansion service. Its thread handles one request at a time, so a handler is a function
on its state; `none` stands for a `furi_check` that fails, which halts the device.
-/

namespace NikitaFirmware.Serial

inductive SerialId
  | usart
  | lpuart
  deriving DecidableEq

/-- The serial a stored index names, if it is below `FuriHalSerialIdMax`. -/
def SerialId.ofIndex? : Nat → Option SerialId
  | 0 => some .usart
  | 1 => some .lpuart
  | _ => none

/-- The components that acquire a serial handle. -/
inductive Owner
  | wifi
  | marauder
  | agent
  | worker
  deriving DecidableEq

structure SerialControl where
  /-- `in_use` of every handle. -/
  handles : SerialId → Option Owner
  logConfigSerialId : Option SerialId
  logSerial : Option SerialId
  expansionSerial : Option SerialId
  expansionCb : Bool
  /-- Whether an interrupt callback is installed on the RX pin of the handle. -/
  gpioInterrupt : SerialId → Bool
  /-- Interrupt messages in the queue of the thread. -/
  queuedIrqs : Nat

def controlQueueSize : Nat := 8

def enableExpansionIrq (c : SerialControl) (handle : SerialId) (enable : Bool) :
    Option SerialControl :=
  if enable then
    -- `furi_hal_gpio_add_int_callback` checks that the pin has no callback yet
    if c.gpioInterrupt handle then none
    else some { c with gpioInterrupt := Function.update c.gpioInterrupt handle true }
  else some { c with gpioInterrupt := Function.update c.gpioInterrupt handle false }

/-- The detection interrupt is switched on the handle the expansion service listens on. -/
def switchExpansionIrq (c : SerialControl) (enable : Bool) : Option SerialControl :=
  match c.expansionSerial with
  | some handle => enableExpansionIrq c handle enable
  | none => some c

def logSetHandle (c : SerialControl) (handle : Option SerialId) : Option SerialControl := do
  let c ← switchExpansionIrq c false
  switchExpansionIrq { c with logSerial := handle } true

def SerialControl.setInUse (c : SerialControl) (id : SerialId) (owner : Option Owner) :
    SerialControl :=
  { c with handles := Function.update c.handles id owner }

/-- Logging and detection leave a line that is about to be handed out. -/
def vacateHandle (c : SerialControl) (serialId : SerialId) : Option SerialControl :=
  if c.logConfigSerialId = some serialId then logSetHandle c none
  else if c.expansionSerial = some serialId then enableExpansionIrq c serialId false
  else some c

/-- Logging or detection returns to a line that was handed back. -/
def reclaimHandle (c : SerialControl) (handle : SerialId) : Option SerialControl :=
  if c.logConfigSerialId = some handle then logSetHandle c (some handle)
  else if c.expansionSerial = some handle then enableExpansionIrq c handle true
  else some c

/-- `furi_hal_serial_control_handler_acquire`: the flag says whether the handle is returned. -/
def handlerAcquire (c : SerialControl) (owner : Owner) (serialId : SerialId) :
    Option (SerialControl × Bool) :=
  if (c.handles serialId).isSome then some (c, false)
  else (vacateHandle c serialId).map fun c => (c.setInUse serialId (some owner), true)

def handlerRelease (c : SerialControl) (handle : SerialId) : Option SerialControl :=
  reclaimHandle (c.setInUse handle none) handle

def handlerExpansionSetCallback (c : SerialControl) (id : SerialId) (callback : Bool) :
    Option SerialControl :=
  if callback then
    if c.expansionSerial = none ∧ c.expansionCb = false then
      enableExpansionIrq { c with expansionSerial := some id, expansionCb := true } id true
    else none
  else if c.expansionSerial = some id ∧ c.expansionCb = true then
    enableExpansionIrq { c with expansionSerial := none, expansionCb := false } id false
  else none

section Specifications

variable {c : SerialControl}

theorem switchExpansionIrq_of_none (h : c.expansionSerial = none) (enable : Bool) :
    switchExpansionIrq c enable = some c := by
  simp only [switchExpansionIrq, h]

theorem logSetHandle_of_none (h : c.expansionSerial = none) (handle : Option SerialId) :
    logSetHandle c handle = some { c with logSerial := handle } := by
  show (switchExpansionIrq c false).bind _ = _
  rw [switchExpansionIrq_of_none h, Option.bind_some]
  exact switchExpansionIrq_of_none (c := { c with logSerial := handle }) h true

theorem handlerAcquire_of_inUse {serialId : SerialId} {o : Owner}
    (h : c.handles serialId = some o) (owner : Owner) :
    handlerAcquire c owner serialId = some (c, false) := by
  simp [handlerAcquire, h]

theorem handlerAcquire_of_free {serialId : SerialId} (hs : c.expansionSerial = none)
    (hf : c.handles serialId = none) (owner : Owner) :
    ∃ log, handlerAcquire c owner serialId =
      some (({ c with logSerial := log }).setInUse serialId (some owner), true) := by
  by_cases hl : c.logConfigSerialId = some serialId
  · refine ⟨none, ?_⟩
    simp [handlerAcquire, hf, vacateHandle, hl, logSetHandle_of_none hs]
  · refine ⟨c.logSerial, ?_⟩
    rw [handlerAcquire, hf, if_neg (by decide), vacateHandle, if_neg hl, if_neg (by simp [hs])]
    rfl

theorem handlerAcquire_handles {serialId : SerialId} {owner : Owner} {c' : SerialControl}
    {got : Bool} (hf : c.handles serialId = none)
    (h : handlerAcquire c owner serialId = some (c', got)) :
    c'.handles serialId = some owner := by
  rw [handlerAcquire, hf, if_neg (by decide)] at h
  obtain ⟨c₁, -, h⟩ := Option.map_eq_some_iff.mp h
  obtain ⟨rfl, -⟩ := Prod.mk.inj h
  exact Function.update_self ..

theorem handlerRelease_of_none (hs : c.expansionSerial = none) (handle : SerialId) :
    ∃ log, handlerRelease c handle = some (({ c with logSerial := log }).setInUse handle none) := by
  by_cases hl : c.logConfigSerialId = some handle
  · refine ⟨some handle, ?_⟩
    show (if c.logConfigSerialId = some handle then _ else _) = _
    rw [if_pos hl]
    exact logSetHandle_of_none (c := c.setInUse handle none) hs (some handle)
  · refine ⟨c.logSerial, ?_⟩
    simp [handlerRelease, reclaimHandle, SerialControl.setInUse, hl, hs]

theorem handlerExpansionSetCallback_true {id : SerialId} (hs : c.expansionSerial = none)
    (hc : c.expansionCb = false) (hg : c.gpioInterrupt id = false) :
    handlerExpansionSetCallback c id true = some { c with
        expansionSerial := some id
        expansionCb := true
        gpioInterrupt := Function.update c.gpioInterrupt id true } := by
  simp [handlerExpansionSetCallback, enableExpansionIrq, hs, hc, hg]

theorem handlerExpansionSetCallback_false {id : SerialId} (hs : c.expansionSerial = some id)
    (hc : c.expansionCb = true) :
    handlerExpansionSetCallback c id false = some { c with
        expansionSerial := none
        expansionCb := false
        gpioInterrupt := Function.update c.gpioInterrupt id false } := by
  simp [handlerExpansionSetCallback, enableExpansionIrq, hs, hc]

end Specifications

/-!
## The expansion service and the users of the GPIO UART

A handler that joins the worker thread is split at the join: `joining` is what it does once the
worker has exited. Calls of the serial control are atomic, as their callers wait for the answer. A
put into a full queue waits; the detection callback drops its message instead.
-/

open Foundations

def expansionQueueSize : Nat := 8

structure ExpansionSettings where
  uartIndex : Nat

/-- The settings that name the USART, also the ones used when none are stored. -/
def ExpansionSettings.usart : ExpansionSettings := ⟨0⟩

/-- The callers of `expansion_disable` and `expansion_enable`. -/
inductive Client
  | wifi
  | marauder
  deriving DecidableEq

def Client.owner : Client → Owner
  | .wifi => .wifi
  | .marauder => .marauder

inductive ExpansionState
  | disabled
  | enabled
  | running
  | connectionEstablished
  deriving DecidableEq

inductive MessageType
  | enable
  | disable
  | reloadSettings
  | moduleConnected
  | moduleDisconnected
  | connectionEstablished
  deriving DecidableEq

/-- A message with the client that waits on its lock. -/
structure Message where
  type : MessageType
  apiLock : Option Client

inductive ExitReason
  | unknown
  | user
  | error
  | timeout
  deriving DecidableEq

/-- Where the worker thread stands: before its acquire, in its protocol, before its exit
callback, or finished. -/
inductive WorkerPhase
  | starting
  | handshake
  | connected
  | reporting
  | exited
  deriving DecidableEq

/-- The phases between the worker's acquire and its release. -/
def WorkerPhase.Holds (p : WorkerPhase) : Prop := p = .handshake ∨ p = .connected

instance (p : WorkerPhase) : Decidable p.Holds := inferInstanceAs (Decidable (_ ∨ _))

structure Worker where
  serialId : SerialId
  phase : WorkerPhase
  stop : Bool

/-- The rest of a handler that waits for the worker to exit. -/
inductive AfterJoin
  | disable
  | setListenSerial (id : SerialId)
  | moduleDisconnected

structure Expansion where
  queue : List Message
  serialId : SerialId
  worker : Option Worker
  state : ExpansionState
  joining : Option (AfterJoin × Option Client)

def Expansion.stopWorker (e : Expansion) (k : AfterJoin) (lock : Option Client) : Expansion :=
  { e with
    worker := e.worker.map fun w => { w with stop := true }
    joining := some (k, lock) }

/-- A handler leaves the service and the serial control, unless a check fails. -/
abbrev Handled := Option (Expansion × SerialControl)

def expansionControlHandlerEnable (settings : ExpansionSettings) (e : Expansion)
    (c : SerialControl) : Handled :=
  if e.state ≠ .disabled then some (e, c)
  else match SerialId.ofIndex? settings.uartIndex with
    | some id => (handlerExpansionSetCallback c id true).map fun c =>
        ({ e with state := .enabled, serialId := id }, c)
    | none => some (e, c)

def expansionControlHandlerDisable (lock : Option Client) (e : Expansion) (c : SerialControl) :
    Handled :=
  match e.state with
  | .disabled => some (e, c)
  | .running | .connectionEstablished => some (e.stopWorker .disable lock, c)
  | .enabled => (handlerExpansionSetCallback c e.serialId false).map fun c =>
      ({ e with state := .disabled }, c)

def listenOn (id : SerialId) (e : Expansion) (c : SerialControl) : Handled :=
  (handlerExpansionSetCallback c id true).map fun c =>
    ({ e with state := .enabled, serialId := id }, c)

def expansionControlHandlerSetListenSerial (id : SerialId) (lock : Option Client)
    (e : Expansion) (c : SerialControl) : Handled :=
  if e.state ≠ .disabled ∧ e.serialId = id then some (e, c)
  else match e.state with
    | .running | .connectionEstablished => some (e.stopWorker (.setListenSerial id) lock, c)
    | .enabled => (handlerExpansionSetCallback c e.serialId false).bind (listenOn id e)
    | .disabled => listenOn id e c

def expansionControlHandlerReloadSettings (settings : ExpansionSettings) (lock : Option Client)
    (e : Expansion) (c : SerialControl) : Handled :=
  match SerialId.ofIndex? settings.uartIndex with
  | some id => expansionControlHandlerSetListenSerial id lock e c
  | none => expansionControlHandlerDisable lock e c

def expansionControlHandlerModuleConnected (e : Expansion) (c : SerialControl) : Handled :=
  if e.state ≠ .enabled then some (e, c)
  else (handlerExpansionSetCallback c e.serialId false).map fun c =>
    ({ e with
      state := .running
      worker := some { serialId := e.serialId, phase := .starting, stop := false } }, c)

/-- `expansion_worker_free` joins the worker without telling it to stop. -/
def expansionControlHandlerModuleDisconnected (lock : Option Client) (e : Expansion)
    (c : SerialControl) : Handled :=
  if e.state ≠ .running ∧ e.state ≠ .connectionEstablished then some (e, c)
  else some ({ e with state := .enabled, joining := some (.moduleDisconnected, lock) }, c)

def expansionControlHandlerConnectionEstablished (e : Expansion) (c : SerialControl) : Handled :=
  if e.state ≠ .running ∧ e.state ≠ .connectionEstablished then some (e, c)
  else some ({ e with state := .connectionEstablished }, c)

def expansionControlHandler (settings : ExpansionSettings) (m : Message) :
    Expansion → SerialControl → Handled :=
  match m.type with
  | .enable => expansionControlHandlerEnable settings
  | .disable => expansionControlHandlerDisable m.apiLock
  | .reloadSettings => expansionControlHandlerReloadSettings settings m.apiLock
  | .moduleConnected => expansionControlHandlerModuleConnected
  | .moduleDisconnected => expansionControlHandlerModuleDisconnected m.apiLock
  | .connectionEstablished => expansionControlHandlerConnectionEstablished

/-- The rest of a handler, once the worker it waits for has exited and has been freed. -/
def afterJoin : AfterJoin → Expansion → SerialControl → Handled
  | .disable, e, c => some ({ e with state := .disabled }, c)
  | .setListenSerial id, e, c => listenOn id e c
  | .moduleDisconnected, e, c =>
    (handlerExpansionSetCallback c e.serialId true).map fun c => (e, c)

/-- Where a client stands: `running` with the handle it got or without one, `enabling` before
its call of `expansion_enable` and `finishing` inside it. -/
inductive ClientPc
  | idle
  | disabling
  | acquiring
  | running (held : Bool)
  | enabling
  | finishing
  deriving DecidableEq

/-- `api_lock_unlock` lets the waiting client return from its call. -/
def ClientPc.unlock : ClientPc → ClientPc
  | .disabling => .acquiring
  | .finishing => .idle
  | pc => pc

structure State where
  control : SerialControl
  expansion : Expansion
  clients : Client → ClientPc
  agentHolds : Bool
  /-- A `furi_check` has failed; the device has halted. -/
  crashed : Bool

namespace State

def setClient (s : State) (i : Client) (pc : ClientPc) : State :=
  { s with clients := Function.update s.clients i pc }

/-- `furi_message_queue_put` into the queue of the service, which waits for room. -/
def put (s : State) (m : Message) : Option State :=
  if s.expansion.queue.length < expansionQueueSize then
    some { s with expansion := { s.expansion with queue := s.expansion.queue ++ [m] } }
  else none

theorem put_clients {s s' : State} {m : Message} (h : s.put m = some s') :
    s'.clients = s.clients := by
  rw [put] at h
  split at h
  · exact Option.some.inj h ▸ rfl
  · cases h

def withControl (s : State) : Option SerialControl → State
  | some c => { s with control := c }
  | none => { s with crashed := true }

@[simp] theorem withControl_some (s : State) (c : SerialControl) :
    s.withControl (some c) = { s with control := c } := rfl

def unlock (s : State) : Option Client → State
  | some i => s.setClient i (s.clients i).unlock
  | none => s

/-- The outcome of a handler: the client is let go unless the handler still waits. -/
def finish (s : State) (lock : Option Client) : Handled → State
  | some (e, c) =>
    let s := { s with expansion := e, control := c }
    if e.joining.isSome then s else s.unlock lock
  | none => { s with crashed := true }

end State

def expansionDisable (i : Client) (s : State) : Option State :=
  if s.clients i = .idle then
    (s.put { type := .disable, apiLock := some i }).map (State.setClient · i .disabling)
  else none

def expansionEnable (i : Client) (s : State) : Option State :=
  if s.clients i = .enabling then
    (s.put { type := .enable, apiLock := some i }).map (State.setClient · i .finishing)
  else none

/-- `furi_hal_serial_control_acquire`; `busy` is where the client goes on without a handle. -/
def clientAcquire (i : Client) (busy : ClientPc) (s : State) : Option State :=
  if s.clients i = .acquiring then
    match handlerAcquire s.control i.owner .usart with
    | some (c, got) => some (State.setClient { s with control := c } i
        (if got then .running true else busy))
    | none => some { s with crashed := true }
  else none

def clientRelease (i : Client) (s : State) : Option State :=
  match s.clients i with
  | .running true =>
    some ((s.withControl (handlerRelease s.control .usart)).setClient i .enabling)
  | .running false => some (s.setClient i .enabling)
  | _ => none

/-- The start of `agent_gpio_watch`, which does nothing on a UART in use. -/
def agentAcquire (s : State) : Option State :=
  if s.agentHolds then none
  else match handlerAcquire s.control .agent .usart with
    | some (c, got) => some { s with control := c, agentHolds := got }
    | none => some { s with crashed := true }

def agentRelease (s : State) : Option State :=
  if s.agentHolds then
    some { s.withControl (handlerRelease s.control .usart) with agentHolds := false }
  else none

/-- `furi_hal_serial_control_expansion_irq_callback`, which drops its message when the queue
is full. -/
def expansionIrqCallback (id : SerialId) (s : State) : Option State :=
  if s.control.gpioInterrupt id then
    if s.control.queuedIrqs < controlQueueSize then
      some { s with control := { s.control with queuedIrqs := s.control.queuedIrqs + 1 } }
    else some s
  else none

/-- `expansion_detect_callback`, which drops its message when the queue is full. -/
def expansionDetectCallback (s : State) : State :=
  (s.put { type := .moduleConnected, apiLock := none }).getD s

/-- The serial control thread takes an interrupt message and handles it with
`furi_hal_serial_control_handler_expansion_irq`. -/
def expansionIrq (s : State) : Option State :=
  if 0 < s.control.queuedIrqs then
    some ((fun s : State => if s.control.expansionCb then expansionDetectCallback s else s)
      { s with control := { s.control with queuedIrqs := s.control.queuedIrqs - 1 } })
  else none

def expansionControl (settings : ExpansionSettings) (s : State) : Option State :=
  match s.expansion.joining, s.expansion.queue with
  | none, m :: queue => some (s.finish m.apiLock
      (expansionControlHandler settings m { s.expansion with queue := queue } s.control))
  | _, _ => none

/-- The join returns and the worker is freed. -/
def expansionJoined (s : State) : Option State :=
  match s.expansion.joining, s.expansion.worker with
  | some (k, lock), some w =>
    if w.phase = .exited then
      some (s.finish lock (afterJoin k { s.expansion with worker := none, joining := none }
        s.control))
    else none
  | _, _ => none

def State.setWorker (s : State) (w : Worker) : State :=
  { s with expansion := { s.expansion with worker := some w } }

/-- The start of `expansion_worker`, which checks that it gets the handle. -/
def workerAcquire (s : State) : Option State :=
  match s.expansion.worker with
  | some w =>
    if w.phase = .starting then
      match handlerAcquire s.control .worker w.serialId with
      | some (c, true) => some (State.setWorker { s with control := c }
          { w with phase := .handshake })
      | _ => some { s with crashed := true }
    else none
  | none => none

/-- The handshake succeeds and the callback reports it. -/
def workerConnected (s : State) : Option State :=
  match s.expansion.worker with
  | some w =>
    if w.phase = .handshake then
      (s.put { type := .connectionEstablished, apiLock := none }).map
        (State.setWorker · { w with phase := .connected })
    else none
  | none => none

/-- The worker leaves its loop and releases the line; it exits silently only on request. -/
def workerRelease (reason : ExitReason) (s : State) : Option State :=
  match s.expansion.worker with
  | some w =>
    if w.phase.Holds ∧ (reason = .user → w.stop = true) then
      some ((s.withControl (handlerRelease s.control w.serialId)).setWorker
        { w with phase := if reason = .user then .exited else .reporting })
    else none
  | none => none

/-- The exit callback. -/
def workerReport (s : State) : Option State :=
  match s.expansion.worker with
  | some w =>
    if w.phase = .reporting then
      (s.put { type := .moduleDisconnected, apiLock := none }).map
        (State.setWorker · { w with phase := .exited })
    else none
  | none => none

inductive Label
  | wifiAlloc
  | wifiAcquire
  | wifiFree
  | wifiEnable
  | marauderStart
  | marauderAcquire
  | marauderRelease
  | marauderEnable
  | agentAcquire
  | agentRelease
  | cardMount
  | fallingEdge (id : SerialId)
  | expansionIrq
  | expansionControl
  | expansionJoined
  | workerAcquire
  | workerConnected
  | workerRelease (reason : ExitReason)
  | workerReport

/-- The WIFI app stays open without the UART; the command gives up at once. -/
def step (settings : ExpansionSettings) (s : State) (l : Label) : Option State :=
  if s.crashed then none
  else match l with
    | .wifiAlloc => expansionDisable .wifi s
    | .wifiAcquire => clientAcquire .wifi (.running false) s
    | .wifiFree => clientRelease .wifi s
    | .wifiEnable => expansionEnable .wifi s
    | .marauderStart => expansionDisable .marauder s
    | .marauderAcquire => clientAcquire .marauder .enabling s
    | .marauderRelease => clientRelease .marauder s
    | .marauderEnable => expansionEnable .marauder s
    | .agentAcquire => agentAcquire s
    | .agentRelease => agentRelease s
    | .cardMount => s.put { type := .reloadSettings, apiLock := none }
    | .fallingEdge id => expansionIrqCallback id s
    | .expansionIrq => expansionIrq s
    | .expansionControl => expansionControl settings s
    | .expansionJoined => expansionJoined s
    | .workerAcquire => workerAcquire s
    | .workerConnected => workerConnected s
    | .workerRelease reason => workerRelease reason s
    | .workerReport => workerReport s

def machine (settings : ExpansionSettings) : Machine State Label := ⟨step settings⟩

end NikitaFirmware.Serial
