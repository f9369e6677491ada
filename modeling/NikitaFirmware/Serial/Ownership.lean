import NikitaFirmware.Serial.Expansion

/-!
# Who owns the GPIO UART

The boot hook of the `marauder` command disables the expansion service, and its comment says
that the service is never enabled again. The WIFI app and the command enable it all the same,
so does a mounted card, and the agent does not disable it at all.
-/

namespace NikitaFirmware.Serial
open Foundations Option Function

/-- A component other than the service's worker holds the UART. -/
def State.NikitaHolds (s : State) : Prop :=
  ∃ o, s.control.handles .usart = some o ∧ o ≠ .worker

instance (s : State) : Decidable s.NikitaHolds :=
  inferInstanceAs (Decidable (∃ o ∈ s.control.handles .usart, o ≠ .worker))

/-- No check has failed, and the service is off the line while a component holds the UART. -/
structure Exclusive (s : State) : Prop where
  checked : s.crashed = false
  alone : s.NikitaHolds → s.expansion.state = .disabled ∧ s.control.expansionCb = false ∧
    s.expansion.worker = none

/-- The boot hook has just disabled the service. What is queued at that moment is arbitrary,
and the agent may be listening on the UART. -/
structure Started (s : State) : Prop where
  checked : s.crashed = false
  state : s.expansion.state = .disabled
  joining : s.expansion.joining = none
  worker : s.expansion.worker = none
  serialId : s.expansion.serialId = .usart
  callback : s.control.expansionCb = false
  serial : s.control.expansionSerial = none
  interrupt : s.control.gpioInterrupt .usart = false
  clients : ∀ i, s.clients i = .idle
  holder : s.control.handles .usart = if s.agentHolds then some .agent else none

def MessageType.Enables (t : MessageType) : Prop := t = .enable ∨ t = .reloadSettings

instance (t : MessageType) : Decidable t.Enables := inferInstanceAs (Decidable (_ ∨ _))

/-- The service is about to handle a message that enables it. -/
def State.EnablesNext (s : State) : Prop :=
  ∃ m ∈ s.expansion.queue.head?, m.type.Enables

instance (s : State) : Decidable s.EnablesNext :=
  inferInstanceAs (Decidable (∃ m ∈ s.expansion.queue.head?, m.type.Enables))

/-- A component finds the UART free only while the service is disabled, and a message that
enables the service is handled only while no component holds the UART. -/
def Guarded (s : State) : Label → Prop
  | .wifiAcquire | .marauderAcquire | .agentAcquire =>
    s.control.handles .usart = none → s.expansion.state = .disabled
  | .expansionControl => s.EnablesNext → ¬ s.NikitaHolds
  | _ => True

instance (s : State) : ∀ l, Decidable (Guarded s l)
  | .wifiAcquire | .marauderAcquire | .agentAcquire =>
    inferInstanceAs (Decidable (_ = _ → _ = _))
  | .expansionControl => inferInstanceAs (Decidable (_ → ¬ _))
  | .wifiAlloc | .wifiFree | .wifiEnable | .marauderStart | .marauderRelease | .marauderEnable
  | .agentRelease | .cardMount | .fallingEdge _ | .expansionIrq | .expansionJoined
  | .workerAcquire | .workerConnected | .workerRelease _ | .workerReport => isTrue trivial

section Coupling

/-- The service waits for a module, with its detection callback installed. -/
def Expansion.Listening (e : Expansion) : Prop := e.state = .enabled ∧ e.joining = none

/-- What the serial control keeps of the service agrees with the state of the service. -/
structure Coupled (c : SerialControl) (e : Expansion) : Prop where
  serialId : e.serialId = .usart
  callback : c.expansionCb = true ↔ e.Listening
  serial : c.expansionSerial = if c.expansionCb then some .usart else none
  interrupt : c.expansionCb = false → c.gpioInterrupt .usart = false
  disabled : e.state = .disabled → e.joining = none ∧ e.worker = none
  listening : e.Listening → e.worker = none
  worker : ∀ w, e.worker = some w → w.serialId = .usart
  holder : c.handles .usart = some .worker ↔ ∃ w, e.worker = some w ∧ w.phase.Holds
  joining : ∀ k lock, e.joining = some (k, lock) →
    k ≠ .setListenSerial .lpuart ∧ (k = .moduleDisconnected → e.state = .enabled)

variable {c : SerialControl} {e : Expansion}

theorem Coupled.queue (h : Coupled c e) (q : List Message) : Coupled c { e with queue := q } :=
  { h with }

theorem Coupled.queuedIrqs (h : Coupled c e) (n : Nat) : Coupled { c with queuedIrqs := n } e :=
  { h with }

theorem Coupled.quiet (h : Coupled c e) (hl : ¬ e.Listening) :
    c.expansionCb = false ∧ c.expansionSerial = none := by
  have hcb : c.expansionCb = false := Bool.eq_false_iff.mpr (mt h.callback.mp hl)
  refine ⟨hcb, ?_⟩
  rw [h.serial, hcb]
  rfl

theorem Coupled.quiet_of_disabled (h : Coupled c e) (hd : e.state = .disabled) :
    c.expansionCb = false ∧ c.expansionSerial = none := by
  refine h.quiet fun hl => ?_
  cases hd.symm.trans hl.1

theorem Coupled.quiet_of_worker (h : Coupled c e) {w : Worker} (hw : e.worker = some w) :
    c.expansionCb = false ∧ c.expansionSerial = none := by
  refine h.quiet fun hl => ?_
  cases hw.symm.trans (h.listening hl)

/-- A handler ends without a failed check, keeps the coupling and leaves the handles alone. -/
def HandledWell (c : SerialControl) (r : Handled) : Prop :=
  ∃ e' c', r = some (e', c') ∧ Coupled c' e' ∧ c'.handles = c.handles

theorem Coupled.unchanged (h : Coupled c e) : HandledWell c (some (e, c)) :=
  ⟨e, c, rfl, h, rfl⟩

theorem Coupled.listenOn (h : Coupled c e) (hl : ¬ e.Listening) (hj : e.joining = none)
    (hw : e.worker = none) : HandledWell c (listenOn .usart e c) := by
  obtain ⟨hcb, hs⟩ := h.quiet hl
  have hset := handlerExpansionSetCallback_true hs hcb (h.interrupt hcb)
  refine ⟨_, _, congrArg (Option.map _) hset, ?_, rfl⟩
  exact {
    serialId := rfl
    callback := iff_of_true rfl ⟨rfl, hj⟩
    serial := rfl
    interrupt := nofun
    disabled := nofun
    listening := fun _ => hw
    worker := h.worker
    holder := h.holder
    joining := fun k lock hk => absurd (hj.symm.trans hk) nofun }

theorem Coupled.unlisten (h : Coupled c e) (hl : e.Listening) :
    ∃ c', handlerExpansionSetCallback c e.serialId false = some c' ∧ c'.handles = c.handles ∧
      ∀ e' : Expansion, e'.serialId = .usart → e'.state ≠ .enabled → e'.joining = none →
        (e'.state = .disabled → e'.worker = none) →
        (∀ w, e'.worker = some w → w.serialId = .usart ∧ ¬ w.phase.Holds) → Coupled c' e' := by
  have hcb : c.expansionCb = true := h.callback.mpr hl
  have hs : c.expansionSerial = some e.serialId := by rw [h.serial, hcb, h.serialId, if_pos rfl]
  have hfree : c.handles .usart ≠ some .worker := by
    intro hw
    obtain ⟨w, hw, -⟩ := h.holder.mp hw
    cases hw.symm.trans (h.listening hl)
  refine ⟨_, handlerExpansionSetCallback_false hs hcb, rfl, ?_⟩
  intro e' hid hst hj hdis hw
  exact {
    serialId := hid
    callback := iff_of_false nofun fun hl' => hst hl'.1
    serial := rfl
    interrupt := by
      intro _
      show update c.gpioInterrupt e.serialId false .usart = false
      rw [h.serialId, update_self]
    disabled := fun hd => ⟨hj, hdis hd⟩
    listening := fun hl' => absurd hl'.1 hst
    worker := fun w hw' => (hw w hw').1
    holder := iff_of_false hfree fun ⟨w, hw', hh⟩ => (hw w hw').2 hh
    joining := fun k lock hk => absurd (hj.symm.trans hk) nofun }

theorem Coupled.stopWorker (h : Coupled c e) (hd : e.state ≠ .disabled) (hn : ¬ e.Listening)
    {k : AfterJoin} (hk : k ≠ .setListenSerial .lpuart) (hm : k ≠ .moduleDisconnected)
    (lock : Option Client) : HandledWell c (some (e.stopWorker k lock, c)) := by
  refine ⟨_, _, rfl, ?_, rfl⟩
  obtain ⟨hcb, -⟩ := h.quiet hn
  exact {
    serialId := h.serialId
    callback := iff_of_false (by rw [hcb]; nofun) (fun hl => absurd hl.2 nofun)
    serial := h.serial
    interrupt := h.interrupt
    disabled := fun hd' => absurd hd' hd
    listening := fun hl => absurd hl.2 nofun
    worker := by
      intro w hw
      obtain ⟨w₀, hw₀, rfl⟩ := map_eq_some_iff.mp hw
      exact h.worker w₀ hw₀
    holder := by
      rw [h.holder]
      constructor
      · rintro ⟨w, hw, hh⟩
        exact ⟨{ w with stop := true }, by simp [Expansion.stopWorker, hw], hh⟩
      · rintro ⟨w, hw, hh⟩
        obtain ⟨w₀, hw₀, rfl⟩ := map_eq_some_iff.mp hw
        exact ⟨w₀, hw₀, hh⟩
    joining := by
      rintro k' lock' hk'
      obtain ⟨rfl, -⟩ := Prod.mk.inj (some.inj hk')
      exact ⟨hk, fun hm' => absurd hm' hm⟩ }

theorem Coupled.handlerEnable (h : Coupled c e) :
    HandledWell c (expansionControlHandlerEnable .usart e c) := by
  by_cases hd : e.state = .disabled
  · rw [expansionControlHandlerEnable, if_neg (not_not_intro hd)]
    obtain ⟨hj, hw⟩ := h.disabled hd
    exact h.listenOn (fun hl => absurd (hd.symm.trans hl.1) (by decide)) hj hw
  · rw [expansionControlHandlerEnable, if_pos hd]
    exact h.unchanged

theorem Coupled.handlerDisable (h : Coupled c e) (hj : e.joining = none)
    (lock : Option Client) : HandledWell c (expansionControlHandlerDisable lock e c) := by
  cases hst : e.state with
  | disabled =>
    simp only [expansionControlHandlerDisable, hst]
    exact h.unchanged
  | enabled =>
    simp only [expansionControlHandlerDisable, hst]
    obtain ⟨c', hset, hc', hnext⟩ := h.unlisten ⟨hst, hj⟩
    have hw : e.worker = none := h.listening ⟨hst, hj⟩
    refine ⟨_, c', congrArg (Option.map _) hset, ?_, hc'⟩
    exact hnext _ h.serialId nofun hj (fun _ => hw) fun w hw' => absurd (hw.symm.trans hw') nofun
  | running | connectionEstablished =>
    simp only [expansionControlHandlerDisable, hst]
    have hn : ¬ e.Listening := fun hl => absurd (hst.symm.trans hl.1) nofun
    exact h.stopWorker (k := .disable) (by rw [hst]; nofun) hn nofun nofun lock

theorem Coupled.handlerReloadSettings (h : Coupled c e) (lock : Option Client) :
    HandledWell c (expansionControlHandlerReloadSettings .usart lock e c) := by
  show HandledWell c (expansionControlHandlerSetListenSerial .usart lock e c)
  by_cases hd : e.state = .disabled
  · rw [expansionControlHandlerSetListenSerial, if_neg (fun hne => hne.1 hd), hd]
    obtain ⟨hj, hw⟩ := h.disabled hd
    exact h.listenOn (fun hl => absurd (hd.symm.trans hl.1) (by decide)) hj hw
  · rw [expansionControlHandlerSetListenSerial, if_pos ⟨hd, h.serialId⟩]
    exact h.unchanged

theorem Coupled.handlerModuleConnected (h : Coupled c e) (hj : e.joining = none) :
    HandledWell c (expansionControlHandlerModuleConnected e c) := by
  by_cases hst : e.state = .enabled
  · rw [expansionControlHandlerModuleConnected, if_neg (not_not_intro hst)]
    obtain ⟨c', hset, hc', hnext⟩ := h.unlisten ⟨hst, hj⟩
    refine ⟨_, c', congrArg (Option.map _) hset, ?_, hc'⟩
    refine hnext _ h.serialId nofun hj nofun ?_
    rintro w hw
    obtain rfl := some.inj hw
    exact ⟨h.serialId, show ¬ WorkerPhase.starting.Holds by decide⟩
  · rw [expansionControlHandlerModuleConnected, if_pos hst]
    exact h.unchanged

theorem Coupled.handlerModuleDisconnected (h : Coupled c e) (lock : Option Client) :
    HandledWell c (expansionControlHandlerModuleDisconnected lock e c) := by
  rw [expansionControlHandlerModuleDisconnected]
  split
  next => exact h.unchanged
  next hst =>
    refine ⟨_, _, rfl, ?_, rfl⟩
    have hn : ¬ e.Listening := fun hl => hst (hl.1 ▸ by decide)
    exact { h with
      callback := iff_of_false (mt h.callback.mp hn) (fun hl => absurd hl.2 nofun)
      disabled := nofun
      listening := fun hl => absurd hl.2 nofun
      joining := by
        rintro k lock' hk
        obtain ⟨rfl, -⟩ := Prod.mk.inj (some.inj hk)
        exact ⟨nofun, fun _ => rfl⟩ }

theorem Coupled.handlerConnectionEstablished (h : Coupled c e) (hj : e.joining = none) :
    HandledWell c (expansionControlHandlerConnectionEstablished e c) := by
  rw [expansionControlHandlerConnectionEstablished]
  split
  next => exact h.unchanged
  next hst =>
    refine ⟨_, _, rfl, ?_, rfl⟩
    have hn : ¬ e.Listening := fun hl => hst (hl.1 ▸ by decide)
    exact { h with
      callback := iff_of_false (mt h.callback.mp hn) (fun hl => absurd hl.1 nofun)
      disabled := nofun
      listening := fun hl => absurd hl.1 nofun
      joining := fun k lock hk => absurd (hj.symm.trans hk) nofun }

theorem Coupled.handler (h : Coupled c e) (hj : e.joining = none) (m : Message) :
    HandledWell c (expansionControlHandler .usart m e c) := by
  obtain ⟨type, lock⟩ := m
  cases type with
  | enable => exact h.handlerEnable
  | disable => exact h.handlerDisable hj lock
  | reloadSettings => exact h.handlerReloadSettings lock
  | moduleConnected => exact h.handlerModuleConnected hj
  | moduleDisconnected => exact h.handlerModuleDisconnected lock
  | connectionEstablished => exact h.handlerConnectionEstablished hj

theorem Coupled.afterJoin (h : Coupled c e) {k : AfterJoin} {lock : Option Client}
    (hj : e.joining = some (k, lock)) {w : Worker} (hw : e.worker = some w)
    (hx : w.phase = .exited) :
    HandledWell c (afterJoin k { e with worker := none, joining := none } c) := by
  obtain ⟨hcb, hs⟩ := h.quiet_of_worker hw
  have hfree : c.handles .usart ≠ some .worker := by
    intro ho
    obtain ⟨w', hw', hh⟩ := h.holder.mp ho
    obtain rfl := some.inj (hw.symm.trans hw')
    rw [hx] at hh
    exact absurd hh (by decide)
  -- with the callback removed, the freed service is one that has been disabled
  have hd : Coupled c { e with worker := none, joining := none, state := .disabled } := {
    serialId := h.serialId
    callback := iff_of_false (by rw [hcb]; nofun) (fun hl => absurd hl.1 nofun)
    serial := h.serial
    interrupt := h.interrupt
    disabled := fun _ => ⟨rfl, rfl⟩
    listening := fun _ => rfl
    worker := nofun
    holder := iff_of_false hfree nofun
    joining := nofun }
  cases k with
  | disable => exact hd.unchanged
  | setListenSerial id =>
    cases id with
    | usart => exact hd.listenOn (fun hl => absurd hl.1 nofun) rfl rfl
    | lpuart => exact absurd rfl (h.joining _ _ hj).1
  | moduleDisconnected =>
    obtain ⟨e', c', hr, hc', hh⟩ := hd.listenOn (fun hl => absurd hl.1 nofun) rfl rfl
    refine ⟨e', c', ?_, hc', hh⟩
    rw [← hr]
    show Option.map _ (handlerExpansionSetCallback c e.serialId true) =
      Option.map _ (handlerExpansionSetCallback c .usart true)
    rw [h.serialId, (h.joining _ _ hj).2 rfl]

theorem expansionControlHandler_of_disabled (hd : e.state = .disabled) {m : Message}
    (hm : ¬ m.type.Enables) (settings : ExpansionSettings) :
    expansionControlHandler settings m e c = some (e, c) := by
  obtain ⟨type, lock⟩ := m
  cases type with
  | enable => exact absurd (Or.inl rfl) hm
  | reloadSettings => exact absurd (Or.inr rfl) hm
  | disable => simp [expansionControlHandler, expansionControlHandlerDisable, hd]
  | moduleConnected => simp [expansionControlHandler, expansionControlHandlerModuleConnected, hd]
  | moduleDisconnected =>
    simp [expansionControlHandler, expansionControlHandlerModuleDisconnected, hd]
  | connectionEstablished =>
    simp [expansionControlHandler, expansionControlHandlerConnectionEstablished, hd]

theorem expansionControlHandler_enables (hd : e.state = .disabled) {m : Message}
    (hm : m.type.Enables) {e' : Expansion} {c' : SerialControl}
    (h : expansionControlHandler .usart m e c = some (e', c')) : e'.state = .enabled := by
  have hl : listenOn .usart e c = some (e', c') := by
    obtain ⟨type, lock⟩ := m
    obtain rfl | rfl := hm
    · simpa [expansionControlHandler, expansionControlHandlerEnable, hd, SerialId.ofIndex?,
        ExpansionSettings.usart, listenOn] using h
    · simpa [expansionControlHandler, expansionControlHandlerReloadSettings,
        expansionControlHandlerSetListenSerial, hd, SerialId.ofIndex?,
        ExpansionSettings.usart, listenOn] using h
  obtain ⟨c₁, -, h₁⟩ := map_eq_some_iff.mp hl
  obtain ⟨rfl, -⟩ := Prod.mk.inj h₁
  rfl

end Coupling

section Holding

variable {c : SerialControl} {e : Expansion}

theorem Coupled.setInUse (h : Coupled c e) {o : Option Owner} (ho : o ≠ some .worker)
    (hc : c.handles .usart ≠ some .worker) (log : Option SerialId) :
    Coupled (({ c with logSerial := log }).setInUse .usart o) e :=
  { h with
    holder := by
      have hu : update c.handles .usart o .usart = o := update_self ..
      exact iff_of_false (fun hw => ho (hu.symm.trans hw)) (mt h.holder.mpr hc) }

/-- What every state of a guarded run satisfies. -/
structure Inv (s : State) : Prop where
  checked : s.crashed = false
  coupled : Coupled s.control s.expansion
  disabled : s.NikitaHolds → s.expansion.state = .disabled
  client : ∀ i, s.control.handles .usart = some i.owner ↔ s.clients i = .running true
  agent : s.control.handles .usart = some .agent ↔ s.agentHolds = true

variable {s : State}

theorem Inv.exclusive (h : Inv s) : Exclusive s where
  checked := h.checked
  alone := by
    intro hn
    have hd := h.disabled hn
    exact ⟨hd, (h.coupled.quiet_of_disabled hd).1, (h.coupled.disabled hd).2⟩

theorem Started.inv (h : Started s) : Inv s where
  checked := h.checked
  coupled := {
    serialId := h.serialId
    callback := iff_of_false (by rw [h.callback]; nofun)
      (fun hl => absurd (h.state.symm.trans hl.1) (by decide))
    serial := by rw [h.serial, h.callback]; rfl
    interrupt := fun _ => h.interrupt
    disabled := fun _ => ⟨h.joining, h.worker⟩
    listening := fun _ => h.worker
    worker := fun w hw => absurd (h.worker.symm.trans hw) nofun
    holder := by
      rw [h.holder, h.worker]
      refine iff_of_false ?_ nofun
      split <;> nofun
    joining := fun k lock hk => absurd (h.joining.symm.trans hk) nofun }
  disabled := fun _ => h.state
  client := by
    intro i
    rw [h.holder, h.clients i]
    refine iff_of_false ?_ nofun
    cases i <;> split <;> nofun
  agent := by
    rw [h.holder]
    cases s.agentHolds <;> simp

theorem Client.owner_ne_worker (i : Client) : some i.owner ≠ some Owner.worker := by
  cases i <;> nofun

theorem Client.owner_ne_agent (i : Client) : some i.owner ≠ some Owner.agent := by
  cases i <;> nofun

theorem Client.owner_injective : Function.Injective Client.owner := by
  rintro (_ | _) (_ | _) h
  all_goals first | rfl | exact absurd h nofun

variable {i : Client}

theorem Inv.setClient (h : Inv s) {pc : ClientPc}
    (hold : s.clients i ≠ .running true) (hnew : pc ≠ .running true) : Inv (s.setClient i pc) :=
  { h with
    client := by
      intro j
      show s.control.handles .usart = some j.owner ↔ update s.clients i pc j = _
      by_cases hj : j = i
      · rw [hj, update_self, h.client i]
        exact iff_of_false hold hnew
      · rw [update_of_ne hj]
        exact h.client j }

theorem Inv.unlock (h : Inv s) (lock : Option Client) : Inv (s.unlock lock) := by
  cases lock with
  | none => exact h
  | some i =>
    show Inv (s.setClient i (s.clients i).unlock)
    by_cases hr : s.clients i = .running true
    · have hself : s.setClient i (s.clients i).unlock = s := by
        rw [hr]
        show { s with clients := update s.clients i (.running true) } = s
        rw [← hr, update_eq_self]
      rw [hself]
      exact h
    · refine h.setClient hr ?_
      cases hpc : s.clients i with
      | running held => cases held <;> simp_all [ClientPc.unlock]
      | _ => nofun

variable {s s' : State}

theorem Inv.put (h : Inv s) {m : Message} (hp : s.put m = some s') : Inv s' := by
  rw [State.put] at hp
  split at hp
  · obtain rfl := some.inj hp
    exact { h with coupled := h.coupled.queue _ }
  · simp at hp

theorem Inv.finish (h : Inv s) {r : Handled} (hr : HandledWell s.control r)
    (hd : s.NikitaHolds → ∀ e c, r = some (e, c) → e.state = .disabled) (lock : Option Client) :
    Inv (s.finish lock r) := by
  obtain ⟨e', c', rfl, hc, hh⟩ := hr
  have hs : Inv { s with expansion := e', control := c' } := {
    checked := h.checked
    coupled := hc
    disabled := by
      rintro ⟨o, ho, hne⟩
      exact hd ⟨o, hh ▸ ho, hne⟩ e' c' rfl
    client := by
      intro i
      show c'.handles .usart = _ ↔ _
      rw [hh]
      exact h.client i
    agent := by
      show c'.handles .usart = _ ↔ _
      rw [hh]
      exact h.agent }
  show Inv (if e'.joining.isSome then _ else _)
  split
  · exact hs
  · exact hs.unlock lock

/-- The UART passes to `o`, which is the only component that then says it has it. -/
theorem Inv.assign (h : Inv s) (hd : s.expansion.state = .disabled)
    (hfree : s.control.handles .usart ≠ some .worker) (log : Option SerialId) (o : Option Owner)
    (ho : o ≠ some .worker) {clients : Client → ClientPc} {agentHolds : Bool}
    (hc : ∀ i, o = some i.owner ↔ clients i = .running true)
    (ha : o = some .agent ↔ agentHolds = true) :
    Inv { s with
      control := ({ s.control with logSerial := log }).setInUse .usart o
      clients := clients
      agentHolds := agentHolds } := by
  have hu : update s.control.handles .usart o .usart = o := update_self ..
  exact {
    checked := h.checked
    coupled := h.coupled.setInUse ho hfree log
    disabled := fun _ => hd
    client := fun i => by rw [← hc i]; exact iff_of_eq (congrArg (· = _) hu)
    agent := by rw [← ha]; exact iff_of_eq (congrArg (· = _) hu) }

theorem Inv.clientAcquire (h : Inv s) (busy : ClientPc) (hb : busy ≠ .running true)
    (hg : s.control.handles .usart = none → s.expansion.state = .disabled)
    (hs : clientAcquire i busy s = some s') : Inv s' := by
  obtain ⟨hpc, hs⟩ := ite_none_right_eq_some.mp hs
  cases hu : s.control.handles .usart with
  | some o =>
    rw [handlerAcquire_of_inUse hu] at hs
    obtain rfl := some.inj hs
    exact h.setClient (by rw [hpc]; nofun) hb
  | none =>
    have hd := hg hu
    obtain ⟨log, hacq⟩ :=
      handlerAcquire_of_free (h.coupled.quiet_of_disabled hd).2 hu i.owner
    rw [hacq] at hs
    obtain rfl := some.inj hs
    refine h.assign hd (by rw [hu]; nofun) log _ i.owner_ne_worker ?_ ?_
    · intro j
      show some i.owner = some j.owner ↔ update s.clients i (.running true) j = _
      by_cases hj : j = i
      · rw [hj, update_self]
        exact iff_of_true rfl rfl
      · rw [update_of_ne hj, ← h.client j, hu]
        refine iff_of_false (fun ho => hj ?_) nofun
        exact (Client.owner_injective (some.inj ho)).symm
    · rw [← h.agent, hu]
      exact iff_of_false i.owner_ne_agent nofun

theorem Inv.clientRelease (h : Inv s) (hs : clientRelease i s = some s') : Inv s' := by
  rw [Serial.clientRelease] at hs
  split at hs
  next hpc =>
    have hu : s.control.handles .usart = some i.owner := (h.client i).mpr hpc
    have hne : some i.owner ≠ some .worker := i.owner_ne_worker
    have hd : s.expansion.state = .disabled := h.disabled ⟨_, hu, mt (congrArg some) hne⟩
    obtain ⟨log, hrel⟩ := handlerRelease_of_none (h.coupled.quiet_of_disabled hd).2 .usart
    rw [hrel, State.withControl_some] at hs
    obtain rfl := some.inj hs
    refine h.assign hd (by rw [hu]; exact hne) log none nofun ?_ ?_
    · intro j
      show none = some j.owner ↔ update s.clients i .enabling j = _
      refine iff_of_false nofun ?_
      by_cases hj : j = i
      · rw [hj, update_self]
        nofun
      · rw [update_of_ne hj, ← h.client j, hu]
        exact fun ho => hj (Client.owner_injective (some.inj ho)).symm
    · rw [← h.agent, hu]
      exact iff_of_false nofun i.owner_ne_agent
  next hpc =>
    obtain rfl := some.inj hs
    exact h.setClient (by rw [hpc]; nofun) nofun
  next => exact absurd hs nofun

theorem Inv.agentAcquire (h : Inv s)
    (hg : s.control.handles .usart = none → s.expansion.state = .disabled)
    (hs : agentAcquire s = some s') : Inv s' := by
  obtain ⟨ha, hs⟩ := ite_none_left_eq_some.mp hs
  cases hu : s.control.handles .usart with
  | some o =>
    rw [handlerAcquire_of_inUse hu] at hs
    obtain rfl := some.inj hs
    rw [← Bool.eq_false_iff.mpr ha]
    exact h
  | none =>
    have hd := hg hu
    obtain ⟨log, hacq⟩ := handlerAcquire_of_free (h.coupled.quiet_of_disabled hd).2 hu .agent
    rw [hacq] at hs
    obtain rfl := some.inj hs
    refine h.assign hd (by rw [hu]; nofun) log (some .agent) nofun ?_ (iff_of_true rfl rfl)
    intro i
    rw [← h.client i, hu]
    exact iff_of_false (fun ho => i.owner_ne_agent ho.symm) nofun

theorem Inv.agentRelease (h : Inv s) (hs : agentRelease s = some s') : Inv s' := by
  obtain ⟨ha, hs⟩ := ite_none_right_eq_some.mp hs
  have hu := h.agent.mpr ha
  have hd : s.expansion.state = .disabled := h.disabled ⟨_, hu, nofun⟩
  obtain ⟨log, hrel⟩ := handlerRelease_of_none (h.coupled.quiet_of_disabled hd).2 .usart
  rw [hrel, State.withControl_some] at hs
  obtain rfl := some.inj hs
  refine h.assign hd (by rw [hu]; nofun) log none nofun ?_ (iff_of_false nofun nofun)
  intro i
  rw [← h.client i, hu]
  exact iff_of_false nofun fun ho => i.owner_ne_agent ho.symm

theorem Inv.setPhase (h : Inv s) {w : Worker} (hw : s.expansion.worker = some w)
    {p : WorkerPhase} (hp : p.Holds ↔ w.phase.Holds) : Inv (s.setWorker { w with phase := p }) :=
  { h with
    coupled := { h.coupled with
      callback := h.coupled.callback
      disabled := fun hd => absurd (hw.symm.trans (h.coupled.disabled hd).2) nofun
      listening := fun hl => absurd (hw.symm.trans (h.coupled.listening hl)) nofun
      worker := by
        intro w' hw'
        obtain rfl := some.inj hw'
        exact h.coupled.worker w hw
      holder := by
        refine h.coupled.holder.trans ⟨?_, ?_⟩
        · rintro ⟨w', hw', hh⟩
          obtain rfl := some.inj (hw.symm.trans hw')
          exact ⟨_, rfl, hp.mpr hh⟩
        · rintro ⟨w', hw', hh⟩
          obtain rfl := some.inj hw'
          exact ⟨w, hw, hp.mp hh⟩ } }

theorem Inv.workerAssign (h : Inv s) {w : Worker}
    (hw : s.expansion.worker = some w) {o : Option Owner} (log : Option SerialId)
    (hold : s.control.handles .usart = none ∨ s.control.handles .usart = some .worker)
    (hnew : o = none ∨ o = some .worker) {p : WorkerPhase} (hp : o = some .worker ↔ p.Holds) :
    Inv (State.setWorker
      { s with control := ({ s.control with logSerial := log }).setInUse .usart o }
      { w with phase := p }) := by
  have hu : update s.control.handles .usart o .usart = o := update_self ..
  have hother : ∀ {q : Owner}, q ≠ .worker → (o = some q ↔ s.control.handles .usart = some q) := by
    intro q hq
    refine iff_of_false ?_ ?_
    · rintro rfl
      exact hnew.elim nofun fun h' => hq (some.inj h')
    · intro h'
      exact hold.elim (fun h'' => absurd (h'.symm.trans h'') nofun)
        fun h'' => hq (some.inj (h'.symm.trans h''))
  exact {
    checked := h.checked
    coupled := { h.coupled with
      callback := h.coupled.callback
      disabled := fun hd => absurd (hw.symm.trans (h.coupled.disabled hd).2) nofun
      listening := fun hl => absurd (hw.symm.trans (h.coupled.listening hl)) nofun
      worker := by
        intro w' hw'
        obtain rfl := some.inj hw'
        exact h.coupled.worker w hw
      holder := by
        refine (iff_of_eq (congrArg (· = _) hu)).trans (hp.trans ?_)
        constructor
        · exact fun hh => ⟨_, rfl, hh⟩
        · rintro ⟨w', hw', hh⟩
          obtain rfl := some.inj hw'
          exact hh }
    disabled := by
      rintro ⟨q, hq, hne⟩
      have hq' := (hother hne).mp (hu.symm.trans hq)
      exact h.disabled ⟨q, hq', hne⟩
    client := by
      intro i
      have hi : i.owner ≠ .worker := fun hi => i.owner_ne_worker (congrArg some hi)
      exact (iff_of_eq (congrArg (· = _) hu)).trans ((hother hi).trans (h.client i))
    agent := (iff_of_eq (congrArg (· = _) hu)).trans ((hother (q := .agent) nofun).trans h.agent) }

theorem Inv.workerAcquire (h : Inv s) (hs : workerAcquire s = some s') : Inv s' := by
  rw [Serial.workerAcquire] at hs
  split at hs
  next w hw =>
    obtain ⟨hp, hs⟩ := ite_none_right_eq_some.mp hs
    have hid : w.serialId = .usart := h.coupled.worker w hw
    -- a component would have the service disabled, and then there is no worker
    have hu : s.control.handles .usart = none := by
      cases hu : s.control.handles .usart with
      | none => rfl
      | some o =>
        by_cases ho : o = .worker
        · obtain ⟨w', hw', hh⟩ := h.coupled.holder.mp (ho ▸ hu)
          obtain rfl := some.inj (hw.symm.trans hw')
          rw [hp] at hh
          exact absurd hh (by decide)
        · have hd := h.disabled ⟨o, hu, ho⟩
          exact absurd (hw.symm.trans (h.coupled.disabled hd).2) nofun
    obtain ⟨log, hacq⟩ := handlerAcquire_of_free (h.coupled.quiet_of_worker hw).2 hu .worker
    have hcall : handlerAcquire s.control .worker w.serialId =
        handlerAcquire s.control .worker .usart := by rw [hid]
    rw [hcall, hacq] at hs
    obtain rfl := some.inj hs
    exact h.workerAssign hw log (.inl hu) (.inr rfl) (iff_of_true rfl (.inl rfl))
  next => exact absurd hs nofun

theorem Inv.workerRelease (h : Inv s) {reason : ExitReason}
    (hs : workerRelease reason s = some s') : Inv s' := by
  rw [Serial.workerRelease] at hs
  split at hs
  next w hw =>
    obtain ⟨hp, hs⟩ := ite_none_right_eq_some.mp hs
    have hu : s.control.handles .usart = some .worker := h.coupled.holder.mpr ⟨w, hw, hp.1⟩
    obtain ⟨log, hrel⟩ := handlerRelease_of_none (h.coupled.quiet_of_worker hw).2 .usart
    have hcall : handlerRelease s.control w.serialId = handlerRelease s.control .usart := by
      rw [h.coupled.worker w hw]
    rw [hcall, hrel, State.withControl_some] at hs
    obtain rfl := some.inj hs
    refine h.workerAssign hw log (.inr hu) (.inl rfl) (iff_of_false nofun ?_)
    split <;> decide
  next => exact absurd hs nofun

theorem Inv.putPhase (h : Inv s) {w : Worker} (hw : s.expansion.worker = some w)
    {p : WorkerPhase} (hp : p.Holds ↔ w.phase.Holds) {m : Message}
    (hs : (s.put m).map (State.setWorker · { w with phase := p }) = some s') : Inv s' := by
  obtain ⟨s₁, hput, rfl⟩ := map_eq_some_iff.mp hs
  refine (h.put hput).setPhase ?_ hp
  rw [State.put] at hput
  split at hput
  · obtain rfl := some.inj hput
    exact hw
  · simp at hput

theorem Inv.workerConnected (h : Inv s) (hs : workerConnected s = some s') : Inv s' := by
  rw [Serial.workerConnected] at hs
  split at hs
  next w hw =>
    obtain ⟨hp, hs⟩ := ite_none_right_eq_some.mp hs
    exact h.putPhase hw (by rw [hp]; decide) hs
  next => exact absurd hs nofun

theorem Inv.workerReport (h : Inv s) (hs : workerReport s = some s') : Inv s' := by
  rw [Serial.workerReport] at hs
  split at hs
  next w hw =>
    obtain ⟨hp, hs⟩ := ite_none_right_eq_some.mp hs
    exact h.putPhase hw (by rw [hp]; decide) hs
  next => exact absurd hs nofun

theorem Inv.expansionIrqCallback (h : Inv s) {id : SerialId}
    (hs : expansionIrqCallback id s = some s') : Inv s' := by
  rw [Serial.expansionIrqCallback] at hs
  split at hs
  · split at hs
    · obtain rfl := some.inj hs
      exact { h with coupled := h.coupled.queuedIrqs _ }
    · exact some.inj hs ▸ h
  · exact absurd hs nofun

theorem Inv.expansionDetectCallback (h : Inv s) : Inv (expansionDetectCallback s) := by
  rw [Serial.expansionDetectCallback]
  cases hput : s.put { type := .moduleConnected, apiLock := none } with
  | some s' => exact h.put hput
  | none => exact h

theorem Inv.expansionIrq (h : Inv s) (hs : expansionIrq s = some s') : Inv s' := by
  rw [Serial.expansionIrq] at hs
  split at hs
  · obtain rfl := some.inj hs
    have hq : Inv { s with
        control := { s.control with queuedIrqs := s.control.queuedIrqs - 1 } } :=
      { h with coupled := h.coupled.queuedIrqs _ }
    show Inv (if _ then _ else _)
    split
    · exact hq.expansionDetectCallback
    · exact hq
  · exact absurd hs nofun

theorem Inv.expansionControl (h : Inv s) (hg : s.EnablesNext → ¬ s.NikitaHolds)
    (hs : expansionControl .usart s = some s') : Inv s' := by
  rw [Serial.expansionControl] at hs
  split at hs
  next m queue hj hq =>
    obtain rfl := some.inj hs
    have hc := h.coupled.queue queue
    refine h.finish (hc.handler hj m) ?_ m.apiLock
    intro hn e c hr
    have hd : s.expansion.state = .disabled := h.disabled hn
    have hm : ¬ m.type.Enables := by
      intro hm
      exact hg ⟨m, by rw [hq]; rfl, hm⟩ hn
    rw [expansionControlHandler_of_disabled (e := { s.expansion with queue := queue }) hd hm] at hr
    obtain ⟨rfl, -⟩ := Prod.mk.inj (some.inj hr)
    exact hd
  next => exact absurd hs nofun

theorem Inv.expansionJoined (h : Inv s) (hs : expansionJoined s = some s') : Inv s' := by
  rw [Serial.expansionJoined] at hs
  split at hs
  next k lock w hj hw =>
    obtain ⟨hx, hs⟩ := ite_none_right_eq_some.mp hs
    obtain rfl := some.inj hs
    refine h.finish (h.coupled.afterJoin hj hw hx) ?_ lock
    intro hn
    exact absurd (hw.symm.trans (h.coupled.disabled (h.disabled hn)).2) nofun
  next => exact absurd hs nofun

/-- A client without the UART sends a message to the service and waits. -/
theorem Inv.send (h : Inv s) {pc pc' : ClientPc} {m : Message}
    (hs : (if s.clients i = pc then (s.put m).map (State.setClient · i pc') else none) = some s')
    (hold : pc ≠ .running true) (hnew : pc' ≠ .running true) : Inv s' := by
  obtain ⟨hpc, hs⟩ := ite_none_right_eq_some.mp hs
  obtain ⟨s₁, hput, rfl⟩ := map_eq_some_iff.mp hs
  refine (h.put hput).setClient ?_ hnew
  rw [State.put_clients hput, hpc]
  exact hold

theorem Inv.expansionDisable (h : Inv s) (hs : expansionDisable i s = some s') : Inv s' :=
  h.send hs nofun nofun

theorem Inv.expansionEnable (h : Inv s) (hs : expansionEnable i s = some s') : Inv s' :=
  h.send hs nofun nofun

theorem Inv.step {l : Label} (h : Inv s) (hg : Guarded s l)
    (hs : (machine .usart).step s l = some s') : Inv s' := by
  have hc : ¬ s.crashed = true := Bool.eq_false_iff.mp h.checked
  change (if s.crashed = true then none else _) = _ at hs
  rw [if_neg hc] at hs
  cases l with
  | wifiAlloc => exact h.expansionDisable hs
  | wifiAcquire => exact h.clientAcquire (.running false) nofun hg hs
  | wifiFree => exact h.clientRelease hs
  | wifiEnable => exact h.expansionEnable hs
  | marauderStart => exact h.expansionDisable hs
  | marauderAcquire => exact h.clientAcquire .enabling nofun hg hs
  | marauderRelease => exact h.clientRelease hs
  | marauderEnable => exact h.expansionEnable hs
  | agentAcquire => exact h.agentAcquire hg hs
  | agentRelease => exact h.agentRelease hs
  | cardMount => exact h.put hs
  | fallingEdge id => exact h.expansionIrqCallback hs
  | expansionIrq => exact h.expansionIrq hs
  | expansionControl => exact h.expansionControl hg hs
  | expansionJoined => exact h.expansionJoined hs
  | workerAcquire => exact h.workerAcquire hs
  | workerConnected => exact h.workerConnected hs
  | workerRelease reason => exact h.workerRelease hs
  | workerReport => exact h.workerReport hs

end Holding

section Violations

variable {s s' : State}

theorem not_exclusive_of_acquire {o : Owner} (ho : o ≠ .worker)
    (hst : s.expansion.state ≠ .disabled)
    (hs : s'.crashed = true ∨
      (s'.control.handles .usart = some o ∧ s'.expansion.state = s.expansion.state)) :
    ¬ Exclusive s' := by
  intro hx
  obtain hcr | ⟨hh, hst'⟩ := hs
  · cases hx.checked.symm.trans hcr
  · exact hst (hst'.symm.trans (hx.alone ⟨o, hh, ho⟩).1)

theorem clientAcquire_violates {i : Client} {busy : ClientPc}
    (hf : s.control.handles .usart = none) (hst : s.expansion.state ≠ .disabled)
    (hs : clientAcquire i busy s = some s') : ¬ Exclusive s' := by
  have ho : i.owner ≠ .worker := fun h => i.owner_ne_worker (congrArg some h)
  refine not_exclusive_of_acquire ho hst ?_
  rw [clientAcquire] at hs
  split at hs
  next =>
    split at hs
    next c got hacq =>
      obtain rfl := some.inj hs
      exact .inr ⟨handlerAcquire_handles hf hacq, rfl⟩
    next =>
      obtain rfl := some.inj hs
      exact .inl rfl
  next => exact absurd hs nofun

theorem agentAcquire_violates (hf : s.control.handles .usart = none)
    (hst : s.expansion.state ≠ .disabled) (hs : agentAcquire s = some s') : ¬ Exclusive s' := by
  refine not_exclusive_of_acquire (o := .agent) nofun hst ?_
  rw [agentAcquire] at hs
  split at hs
  next => exact absurd hs nofun
  next =>
    split at hs
    next c got hacq =>
      obtain rfl := some.inj hs
      exact .inr ⟨handlerAcquire_handles hf hacq, rfl⟩
    next =>
      obtain rfl := some.inj hs
      exact .inl rfl

theorem expansionControl_violates (h : Inv s) (hm : s.EnablesNext)
    (hn : s.NikitaHolds) (hs : expansionControl .usart s = some s') : ¬ Exclusive s' := by
  have hd := h.disabled hn
  obtain ⟨m, hmem, hen⟩ := hm
  rw [expansionControl] at hs
  split at hs
  next m' queue hj hq =>
    obtain rfl : m' = m := by
      rw [hq] at hmem
      exact some.inj hmem
    obtain rfl := some.inj hs
    obtain ⟨e', c', hr, -, hh⟩ := (h.coupled.queue queue).handler hj m'
    have hst := expansionControlHandler_enables (e := { s.expansion with queue := queue }) hd hen hr
    rw [hr]
    intro hx
    obtain ⟨o, ho, hne⟩ := hn
    have hctl : ∀ lock, (s.finish lock (some (e', c'))).control = c' ∧
        (s.finish lock (some (e', c'))).expansion = e' := by
      intro lock
      simp only [State.finish]
      split
      · exact ⟨rfl, rfl⟩
      · cases lock <;> exact ⟨rfl, rfl⟩
    have hal := hx.alone ⟨o, by rw [(hctl _).1, hh]; exact ho, hne⟩
    rw [(hctl _).2, hst] at hal
    exact absurd hal.1 nofun
  next => exact absurd hs nofun

theorem step_violates {l : Label} (h : Inv s) (hg : ¬ Guarded s l)
    (hs : (machine .usart).step s l = some s') : ¬ Exclusive s' := by
  have hc : ¬ s.crashed = true := Bool.eq_false_iff.mp h.checked
  change (if s.crashed = true then none else _) = _ at hs
  rw [if_neg hc] at hs
  cases l with
  | wifiAcquire | marauderAcquire =>
    obtain ⟨hf, hst⟩ := Classical.not_imp.mp hg
    exact clientAcquire_violates hf hst hs
  | agentAcquire =>
    obtain ⟨hf, hst⟩ := Classical.not_imp.mp hg
    exact agentAcquire_violates hf hst hs
  | expansionControl =>
    obtain ⟨hm, hn⟩ := Classical.not_imp.mp hg
    exact expansionControl_violates h hm (not_not.mp hn) hs
  | _ => exact absurd trivial hg

end Violations

/-- The UART is exclusive all along a run exactly when every step of the run is guarded. -/
theorem usart_exclusive_iff {s₀ t : State} {ls : List Label} (h₀ : Started s₀)
    (h : (machine .usart).run s₀ ls = some t) :
    (∀ pre u, pre <+: ls → (machine .usart).run s₀ pre = some u → Exclusive u) ↔
      (machine .usart).Meets Guarded s₀ ls :=
  ((machine .usart).meets_iff_always (fun _ _ _ hI hg hs => hI.step hg hs)
    (fun _ hI => hI.exclusive) (fun _ _ _ hI hg hs => step_violates hI hg hs) h₀.inv h).symm

/-- The device right after the boot hook has disabled the service. -/
def bootState : State where
  control := {
    handles := fun _ => none
    logConfigSerialId := none
    logSerial := none
    expansionSerial := none
    expansionCb := false
    gpioInterrupt := fun _ => false
    queuedIrqs := 0 }
  expansion := {
    queue := []
    serialId := .usart
    worker := none
    state := .disabled
    joining := none }
  clients := fun _ => .idle
  agentHolds := false
  crashed := false

theorem bootState_started : Started bootState where
  checked := rfl
  state := rfl
  joining := rfl
  worker := rfl
  serialId := rfl
  callback := rfl
  serial := rfl
  interrupt := rfl
  clients := fun _ => rfl
  holder := rfl

/-- The WIFI app is opened and closed, a module comes and goes, and the command follows. -/
def guardedRun : List Label :=
  [.wifiAlloc, .expansionControl, .wifiAcquire, .wifiFree, .wifiEnable, .expansionControl,
    .fallingEdge .usart, .expansionIrq, .expansionControl, .workerAcquire, .workerConnected,
    .expansionControl, .marauderStart, .expansionControl, .workerRelease .user,
    .expansionJoined, .marauderAcquire, .marauderRelease]

theorem guardedRun_exclusive : ∃ t, (machine .usart).run bootState guardedRun = some t ∧
    ∀ pre u, pre <+: guardedRun → (machine .usart).run bootState pre = some u → Exclusive u := by
  have hrun : ((machine .usart).run bootState guardedRun).isSome := by decide
  refine ⟨_, (some_get hrun).symm, ?_⟩
  exact (usart_exclusive_iff bootState_started (some_get hrun).symm).mpr (by decide)

/-- The command finds the UART in use by the agent, enables the service on its way out, and the
worker that the next edge starts fails its check. -/
def faultingRun : List Label :=
  [.agentAcquire, .marauderStart, .expansionControl, .marauderAcquire, .marauderEnable,
    .expansionControl, .fallingEdge .usart, .expansionIrq, .expansionControl, .workerAcquire]

theorem usart_not_always_exclusive : ¬ ∀ s₀ ls t, Started s₀ →
    (machine .usart).run s₀ ls = some t → Exclusive t := by
  intro hall
  have hx := hall bootState faultingRun (((machine .usart).run bootState faultingRun).get
    (by decide)) bootState_started (by rw [some_get])
  exact absurd hx.checked (by decide)

end NikitaFirmware.Serial
