import NikitaFirmware.Rpc.Session

/-!
# Sections and the close of a session

What holds of a session whatever it decodes: who is inside a section, which callbacks a close
has cleared so far, and that the disconnect flag is not lost before the worker acts on it. No
byte reaches the transport after `rpc_session_close` has returned.
-/

namespace NikitaFirmware.Rpc
open Foundations List Option

variable {M : Type} {p : Protocol M} {s s' : State M}

namespace Pc

def holdsSection : Pc M → Bool
  | inSection _ => true
  | _ => false

def holdsBusy : Pc M → Bool
  | handling _ | unbusy | inSection (.handling _) => true
  | _ => false

/-- The worker is in the loop of `rpc_pb_stream_read`. -/
def reading : Pc M → Bool
  | receive .. | wait .. | disconnect .. => true
  | _ => false

def disconnecting : Pc M → Bool
  | disconnect .. => true
  | _ => false

/-- A request that is not answered yet lacks at least one byte. -/
def Room : Pc M → Prop
  | receive q received | wait q received | disconnect q received => received.length ≤ q.n
  | _ => True

end Pc

@[simp] theorem After.pc_holdsSection (next : After M) : next.pc.holdsSection = false := by
  cases next <;> rfl

@[simp] theorem After.pc_holdsBusy (next : After M) :
    next.pc.holdsBusy = (Pc.inSection next).holdsBusy := by
  cases next <;> rfl

@[simp] theorem After.pc_reading (next : After M) : next.pc.reading = false := by
  cases next <;> rfl

@[simp] theorem After.pc_room (next : After M) : next.pc.Room := by
  cases next <;> exact trivial

/-- Which callbacks a close has cleared so far. -/
def Cleared (s : State M) : Prop :=
  match s.closer with
  | .idle => s.callbacks .sendBytes = true ∧ s.callbacks .closed = true
  | .clearing todo => ∀ c, c ∉ todo → s.callbacks c = false
  | .inSection todo => ∀ c, c ∉ todo → s.callbacks c = false ∨
      s.callbacksMutex = some (.closer, some (.clear c))
  | .returned => ∀ c, s.callbacks c = false

def Event.IsSent (e : Event M) : Prop := ∃ origin data, e = .sent origin data

/-- The bookkeeping of the threads of a session. -/
structure Sound (s : State M) : Prop where
  workerSection : s.callbacksMutex.map Prod.fst = some .worker ↔ s.pc.holdsSection = true
  closerSection : s.callbacksMutex.map Prod.fst = some .closer ↔ ∃ todo, s.closer = .inSection todo
  busy : s.busyMutex = some .worker ↔ s.pc.holdsBusy = true
  bystander : s.busyMutex ≠ some .closer
  room : s.pc.Room
  reading : s.terminate = true → s.pc.reading = false
  flagged : s.closer = .returned → s.terminate = false →
    s.disconnect = true ∨ s.pc.disconnecting = true
  cleared : Cleared s
  clearing : ∀ t c, s.callbacksMutex = some (t, some (.clear c)) → t = .closer
  late : s.terminate = false → s.late = []
  returned : .closeReturned ∈ s.log → s.closer = .returned
  silent : NoneAfter .closeReturned Event.IsSent s.log

namespace Sound

theorem opened (bufferIsEmpty : Bool) : Sound (opened p bufferIsEmpty) where
  workerSection := by simp [Rpc.opened, Pc.holdsSection]
  closerSection := by simp [Rpc.opened]
  busy := by simp [Rpc.opened, Pc.holdsBusy]
  bystander := nofun
  room := trivial
  reading := nofun
  flagged := nofun
  cleared := ⟨rfl, rfl⟩
  clearing := nofun
  late := fun _ => rfl
  returned := nofun
  silent := NoneAfter.nil

theorem setPc (h : Sound s) {pc : Pc M} (hsec : pc.holdsSection = s.pc.holdsSection)
    (hbusy : pc.holdsBusy = s.pc.holdsBusy) (hroom : pc.Room)
    (hread : s.terminate = true → pc.reading = false)
    (hdis : s.pc.disconnecting = true → pc.disconnecting = true) : Sound { s with pc := pc } :=
  { h with
    workerSection := by rw [h.workerSection, hsec]
    busy := by rw [h.busy, hbusy]
    room := hroom
    reading := hread
    flagged := fun hc ht => (h.flagged hc ht).imp_right hdis }

/-- The worker moves on from decoding, where it holds neither the section nor the flag. -/
theorem decoded (h : Sound s) {d : Decode M} (hpc : s.pc = .decode d) {pc : Pc M}
    (hsec : pc.holdsSection = false) (hbusy : pc.holdsBusy = false) (hroom : pc.Room)
    (hread : s.terminate = true → pc.reading = false) : Sound { s with pc := pc } :=
  h.setPc (by rw [hpc, hsec]; rfl) (by rw [hpc, hbusy]; rfl) hroom hread (by rw [hpc]; nofun)

theorem emit (h : Sound s) {e : Event M} (hsent : ¬ e.IsSent)
    (hret : e ≠ .closeReturned) : Sound (s.emit e) :=
  { h with
    returned := by
      intro hmem
      rcases mem_append.mp hmem with hmem | hmem
      · exact h.returned hmem
      · exact absurd (mem_singleton.mp hmem).symm hret
    silent := h.silent.concat (.inr hsent) }

theorem emitIf (h : Sound s) {c : Callback} {e : Event M} (hret : e ≠ .closeReturned) :
    Sound (s.emitIf c e) := by
  rw [State.emitIf]
  split
  next hcb =>
    refine { h with
      returned := ?_
      silent := h.silent.concat (.inl ?_) }
    · intro hmem
      rcases mem_append.mp hmem with hmem | hmem
      · exact h.returned hmem
      · exact absurd (mem_singleton.mp hmem).symm hret
    · intro hmem
      have hcl := h.cleared
      rw [Cleared, h.returned hmem] at hcl
      exact absurd (hcl c) (by rw [hcb]; decide)
  next => exact h

theorem enterWorker (h : Sound s) {a : Action} {next : After M}
    (hbusy : (Pc.inSection next).holdsBusy = s.pc.holdsBusy)
    (hdis : s.pc.disconnecting = false) (ha : ∀ c, a ≠ .clear c)
    (hmutex : s.callbacksMutex = none) :
    Sound { s with callbacksMutex := some (.worker, some a), pc := .inSection next } :=
  { h with
    workerSection := iff_of_true rfl rfl
    closerSection := by
      rw [← h.closerSection, hmutex]
      exact iff_of_false (by simp) (by simp)
    busy := by rw [h.busy, hbusy]
    room := trivial
    reading := fun _ => rfl
    flagged := fun hc ht => (h.flagged hc ht).imp_right fun hd => by rw [hdis] at hd; cases hd
    cleared := by
      have hcl := h.cleared
      rw [Cleared] at hcl ⊢
      cases hc : s.closer with
      | inSection todo =>
        have hno := h.closerSection.mpr ⟨todo, hc⟩
        rw [hmutex] at hno
        simp at hno
      | _ => simpa only [hc] using hcl
    clearing := by
      intro t c hm
      obtain ⟨-, hm⟩ := Prod.mk.inj (some.inj hm)
      exact absurd (some.inj hm) (ha c) }

theorem feed (h : Sound s) {data : Bytes} (hs : feed data s = some s') : Sound s' := by
  rw [Rpc.feed] at hs
  split at hs
  · obtain rfl := some.inj hs
    exact { h with
      late := by
        intro ht
        show (if s.terminate then _ else _) = _
        rw [if_neg (by rw [ht]; decide)]
        exact h.late ht }
  · simp at hs

theorem feedFlag (h : Sound s) (hs : feedFlag s = some s') : Sound s' := by
  rw [Rpc.feedFlag] at hs
  split at hs
  · obtain rfl := some.inj hs
    exact { h with }
  · simp at hs

theorem notifyEmpty (h : Sound s) : Sound (notifyEmpty s) := by
  rw [Rpc.notifyEmpty]
  split
  · exact h.emitIf (e := .bufferIsEmpty) nofun
  · exact h

theorem gather_length {q : Request M} {received : Bytes} (hroom : received.length ≤ q.n) :
    (gather q received s).length ≤ q.n + 1 := by
  rw [gather]
  split
  · exact Nat.zero_le _
  · rw [length_append, length_take]
    omega

theorem receive (h : Sound s) {q : Request M} {received : Bytes}
    (hpc : s.pc = .receive q received) : Sound (receive q received s) := by
  have hroom : received.length ≤ q.n := by
    have hr := h.room
    rwa [hpc] at hr
  have hgot := gather_length (s := s) hroom
  have hs : Sound { s with stream := s.stream.drop (q.n + 1 - received.length) } := { h with }
  refine notifyEmpty (hs.setPc ?_ ?_ ?_ ?_ ?_)
  · rw [hpc]
    split <;> rfl
  · rw [hpc]
    split <;> rfl
  · split
    · trivial
    · show (gather q received s).length ≤ q.n
      omega
  · intro ht
    have hr := h.reading ht
    rw [hpc] at hr
    cases hr
  · intro hd
    rw [hpc] at hd
    cases hd

theorem wake (h : Sound s) {q : Request M} {received : Bytes} (hpc : s.pc = .wait q received)
    (hs : wake q received s = some s') : Sound s' := by
  have hroom : received.length ≤ q.n := by
    have hr := h.room
    rwa [hpc] at hr
  have ht : s.terminate = false := by
    cases ht : s.terminate with
    | false => rfl
    | true =>
      have hr := h.reading ht
      rw [hpc] at hr
      cases hr
  rw [Rpc.wake] at hs
  split at hs
  · obtain rfl := some.inj hs
    exact { h with
      workerSection := by
        rw [h.workerSection, hpc]
        split <;> rfl
      busy := by
        rw [h.busy, hpc]
        split <;> rfl
      room := by
        split <;> exact hroom
      reading := fun ht' => by rw [ht] at ht'; cases ht'
      flagged := by
        intro hc ht'
        right
        rcases h.flagged hc ht' with hd | hd
        · rw [hd]
          rfl
        · rw [hpc] at hd
          cases hd }
  · simp at hs

theorem testEmpty (h : Sound s) {q : Request M} {received : Bytes}
    (hpc : s.pc = .disconnect q received) : Sound (testEmpty q received s) := by
  have hroom : received.length ≤ q.n := by
    have hr := h.room
    rwa [hpc] at hr
  rw [Rpc.testEmpty]
  split
  · exact { h with
      workerSection := by rw [h.workerSection, hpc]; rfl
      busy := by rw [h.busy, hpc]; rfl
      room := trivial
      reading := fun _ => rfl
      flagged := nofun
      late := nofun }
  · exact { h with
      workerSection := by rw [h.workerSection, hpc]; rfl
      busy := by rw [h.busy, hpc]; rfl
      room := hroom
      reading := by
        intro ht
        have hr := h.reading ht
        rw [hpc] at hr
        cases hr
      flagged := fun _ _ => .inl rfl }

theorem worker (h : Sound s) (hs : worker p s = some s') : Sound s' := by
  rw [Rpc.worker] at hs
  cases hpc : s.pc with
  | decode d =>
    cases d with
    | ret m =>
      simp only [hpc, some.injEq] at hs
      subst hs
      rw [dispatch]
      split
      · exact h.decoded hpc rfl rfl trivial fun _ => rfl
      · exact h.decoded hpc rfl rfl trivial fun _ => rfl
      · split
        · exact h.decoded hpc rfl rfl trivial fun _ => rfl
        · exact h.decoded hpc rfl rfl trivial fun _ => rfl
      · exact h.decoded hpc rfl rfl trivial fun _ => rfl
    | fail =>
      simp only [hpc, some.injEq] at hs
      subst hs
      exact h.decoded hpc rfl rfl trivial fun _ => rfl
    | read n next eof refused =>
      simp only [hpc] at hs
      split at hs
      · obtain rfl := some.inj hs
        exact h.decoded hpc rfl rfl trivial fun _ => rfl
      next ht =>
        obtain rfl := some.inj hs
        exact h.decoded hpc rfl rfl (Nat.zero_le _) fun ht' => absurd ht' ht
  | receive q received =>
    simp only [hpc, some.injEq] at hs
    subst hs
    exact h.receive hpc
  | wait q received =>
    simp only [hpc] at hs
    exact h.wake hpc hs
  | disconnect q received =>
    simp only [hpc, some.injEq] at hs
    subst hs
    exact h.testEmpty hpc
  | busy m =>
    simp only [hpc] at hs
    split at hs
    · obtain rfl := some.inj hs
      refine emit ?_ nofun nofun
      exact { h with
        workerSection := by rw [h.workerSection, hpc]; rfl
        busy := iff_of_true rfl rfl
        bystander := nofun
        room := trivial
        reading := fun _ => rfl
        flagged := fun hc ht => (h.flagged hc ht).imp_right (by rw [hpc]; nofun) }
    · simp at hs
  | unbusy =>
    simp only [hpc, some.injEq] at hs
    subst hs
    exact { h with
      workerSection := by rw [h.workerSection, hpc]; rfl
      busy := iff_of_false nofun nofun
      bystander := nofun
      room := trivial
      reading := fun _ => rfl
      flagged := fun hc ht => (h.flagged hc ht).imp_right (by rw [hpc]; nofun) }
  | notImplemented m =>
    simp only [hpc] at hs
    obtain ⟨s₁, hs₁, rfl⟩ := map_eq_some_iff.mp hs
    obtain ⟨hm, rfl⟩ := State.enter_eq_some hs₁
    exact h.enterWorker (by rw [hpc]; rfl) (by rw [hpc]; rfl) nofun hm
  | errorSend =>
    simp only [hpc] at hs
    obtain ⟨s₁, hs₁, rfl⟩ := map_eq_some_iff.mp hs
    obtain ⟨hm, rfl⟩ := State.enter_eq_some hs₁
    refine emit (e := .errorDecode) ?_ nofun nofun
    exact h.enterWorker (by rw [hpc]; rfl) (by rw [hpc]; rfl) nofun hm
  | errorClose =>
    simp only [hpc] at hs
    obtain ⟨s₁, hs₁, rfl⟩ := map_eq_some_iff.mp hs
    obtain ⟨hm, rfl⟩ := State.enter_eq_some hs₁
    exact h.enterWorker (by rw [hpc]; rfl) (by rw [hpc]; rfl) nofun hm
  | release =>
    simp only [hpc, some.injEq] at hs
    subst hs
    refine h.setPc ?_ ?_ ?_ ?_ ?_
    · rw [hpc]
      split <;> rfl
    · rw [hpc]
      split <;> rfl
    · split <;> exact trivial
    · intro _
      split <;> rfl
    · rw [hpc]
      nofun
  | handling m | failed | inSection next | ended =>
    simp [hpc] at hs

theorem reset (h : Sound s) {ok : Bool} (hs : reset ok s = some s') : Sound s' := by
  rw [Rpc.reset] at hs
  cases hpc : s.pc with
  | failed =>
    simp only [hpc] at hs
    have h₁ : Sound { s with stream := if ok then [] else s.stream } := { h with }
    split at hs
    · obtain rfl := some.inj hs
      exact h₁.setPc (by rw [hpc]; rfl) (by rw [hpc]; rfl) trivial (fun _ => rfl)
        (by rw [hpc]; nofun)
    · obtain rfl := some.inj hs
      have h₂ : Sound { s with
          stream := if ok then [] else s.stream, decodeError := true } := { h with }
      exact h₂.setPc (by rw [hpc]; rfl) (by rw [hpc]; rfl) trivial (fun _ => rfl)
        (by rw [hpc]; nofun)
  | _ => simp [hpc] at hs

theorem handlerAction (h : Sound s) {a : Action} (ha : ∀ c, a ≠ .clear c)
    (hs : handlerAction a s = some s') : Sound s' := by
  rw [Rpc.handlerAction] at hs
  cases hpc : s.pc with
  | handling m =>
    simp only [hpc] at hs
    obtain ⟨s₁, hs₁, rfl⟩ := map_eq_some_iff.mp hs
    obtain ⟨hm, rfl⟩ := State.enter_eq_some hs₁
    exact h.enterWorker (by rw [hpc]; rfl) (by rw [hpc]; rfl) ha hm
  | _ => simp [hpc] at hs

theorem handlerReturn (h : Sound s) (hs : handlerReturn s = some s') : Sound s' := by
  rw [Rpc.handlerReturn] at hs
  cases hpc : s.pc with
  | handling m =>
    simp only [hpc, some.injEq] at hs
    subst hs
    exact h.setPc (by rw [hpc]; rfl) (by rw [hpc]; rfl) trivial (fun _ => rfl) (by rw [hpc]; nofun)
  | _ => simp [hpc] at hs

theorem otherBusy (h : Sound s) (hs : otherBusy s = some s') : Sound s' := by
  rw [Rpc.otherBusy] at hs
  split at hs
  next hb =>
    obtain rfl := some.inj hs
    exact { h with
      busy := by
        rw [← h.busy, hb]
        exact iff_of_false (by simp) (by simp)
      bystander := nofun }
  next => simp at hs

theorem otherUnbusy (h : Sound s) (hs : otherUnbusy s = some s') : Sound s' := by
  rw [Rpc.otherUnbusy] at hs
  split at hs
  next hb =>
    obtain rfl := some.inj hs
    exact { h with
      busy := by
        rw [← h.busy, hb]
        exact iff_of_false (by simp) (by simp)
      bystander := nofun }
  next => simp at hs

theorem setMutex (h : Sound s) {mutex : Option (Thread × Option Action)}
    (hw : mutex.map Prod.fst = some .worker ↔ s.callbacksMutex.map Prod.fst = some .worker)
    (hc : mutex.map Prod.fst = some .closer ↔ s.callbacksMutex.map Prod.fst = some .closer)
    (hclear : ∀ c, s.callbacksMutex = some (.closer, some (.clear c)) →
      mutex = some (.closer, some (.clear c)))
    (hnew : ∀ t c, mutex = some (t, some (.clear c)) → t = .closer) :
    Sound { s with callbacksMutex := mutex } :=
  { h with
    workerSection := hw.trans h.workerSection
    closerSection := hc.trans h.closerSection
    cleared := by
      have hcl := h.cleared
      rw [Cleared] at hcl ⊢
      cases hcs : s.closer with
      | inSection todo =>
        simp only [hcs] at hcl ⊢
        exact fun c hc => (hcl c hc).imp_right (hclear c)
      | _ => simpa only [hcs] using hcl
    clearing := hnew }

theorem otherSend (h : Sound s) {data : Bytes}
    (hs : s.enter .other (.send .other data) = some s') : Sound s' := by
  obtain ⟨hm, rfl⟩ := State.enter_eq_some hs
  refine h.setMutex ?_ ?_ ?_ nofun
  · rw [hm]
    exact iff_of_false (by simp) (by simp)
  · rw [hm]
    exact iff_of_false (by simp) (by simp)
  · intro c hc
    rw [hm] at hc
    cases hc

theorem called (h : Sound s) {t : Thread} {a : Action} (ha : ∀ c, a ≠ .clear c)
    (hm : s.callbacksMutex = some (t, some a)) {c : Callback} {e : Event M}
    (he : e ≠ .closeReturned) :
    Sound { s.emitIf c e with callbacksMutex := some (t, none) } := by
  refine (h.emitIf he).setMutex ?_ ?_ ?_ nofun
  · rw [State.emitIf_callbacksMutex, hm]
    rfl
  · rw [State.emitIf_callbacksMutex, hm]
    rfl
  · intro c' hc'
    rw [State.emitIf_callbacksMutex, hm] at hc'
    obtain ⟨-, hc'⟩ := Prod.mk.inj (some.inj hc')
    exact absurd (some.inj hc') (ha c')

theorem clear (h : Sound s) {t : Thread} {c : Callback}
    (hm : s.callbacksMutex = some (t, some (.clear c))) :
    Sound { s with
      callbacks := Function.update s.callbacks c false
      callbacksMutex := some (t, none) } := by
  obtain rfl := h.clearing t c hm
  obtain ⟨todo, hc⟩ := h.closerSection.mp (by rw [hm]; rfl)
  have hcl := h.cleared
  exact { h with
    workerSection := by
      rw [← h.workerSection, hm]
      rfl
    closerSection := by
      rw [← h.closerSection, hm]
      rfl
    clearing := nofun
    cleared := by
      rw [Cleared] at hcl ⊢
      simp only [hc] at hcl ⊢
      intro c' hc'
      left
      by_cases hcc : c' = c
      · rw [hcc, Function.update_self]
      · rw [Function.update_of_ne hcc]
        refine (hcl c' hc').resolve_right fun hm' => hcc ?_
        rw [hm] at hm'
        injection hm' with hm'
        injection hm' with _ hm'
        injection hm' with hm'
        injection hm' with hm'
        exact hm'.symm }

theorem act (h : Sound s) (hs : act s = some s') : Sound s' := by
  rw [Rpc.act] at hs
  split at hs
  next t a hm =>
    obtain rfl := some.inj hs
    cases a with
    | send origin data => exact h.called (a := .send origin data) (e := .sent origin data) nofun hm nofun
    | callClosed origin => exact h.called (a := .callClosed origin) (e := .closed origin) nofun hm nofun
    | clear c => exact h.clear hm
  next => simp at hs

theorem leave (h : Sound s) (hs : leave s = some s') : Sound s' := by
  rw [Rpc.leave] at hs
  split at hs
  next hm =>
    split at hs
    next next hpc =>
      obtain rfl := some.inj hs
      exact { h with
        workerSection := iff_of_false nofun (by rw [After.pc_holdsSection]; nofun)
        closerSection := by
          rw [← h.closerSection, hm]
          exact iff_of_false (by simp) (by simp)
        busy := by rw [h.busy, hpc, After.pc_holdsBusy]
        room := next.pc_room
        reading := fun _ => next.pc_reading
        flagged := fun hc ht => (h.flagged hc ht).imp_right (by rw [hpc]; nofun)
        clearing := nofun
        cleared := by
          have hcl := h.cleared
          rw [Cleared] at hcl ⊢
          cases hc : s.closer with
          | inSection todo =>
            have hno := h.closerSection.mpr ⟨todo, hc⟩
            rw [hm] at hno
            cases hno
          | _ => simpa only [hc] using hcl }
    next => simp at hs
  next hm =>
    split at hs
    next todo hc =>
      obtain rfl := some.inj hs
      exact { h with
        workerSection := by
          rw [← h.workerSection, hm]
          exact iff_of_false (by simp) (by simp)
        closerSection := iff_of_false nofun nofun
        flagged := nofun
        clearing := nofun
        returned := by
          intro hr
          have hr' := h.returned hr
          rw [hc] at hr'
          cases hr'
        cleared := by
          have hcl := h.cleared
          rw [Cleared, hc] at hcl
          intro c hcm
          refine (hcl c hcm).resolve_right ?_
          rw [hm]
          nofun }
    next => simp at hs
  next hm =>
    obtain rfl := some.inj hs
    refine h.setMutex ?_ ?_ ?_ nofun
    · rw [hm]
      exact iff_of_false (by simp) (by simp)
    · rw [hm]
      exact iff_of_false (by simp) (by simp)
    · intro c hc
      rw [hm] at hc
      cases hc
  next => simp at hs

theorem close (h : Sound s) (hs : close s = some s') : Sound s' := by
  rw [Rpc.close] at hs
  have hcl := h.cleared
  rw [Cleared] at hcl
  split at hs
  next hc =>
    obtain rfl := some.inj hs
    exact { h with
      closerSection := by
        rw [h.closerSection, hc]
        exact iff_of_false nofun nofun
      flagged := nofun
      cleared := by
        intro c hcm
        cases c <;> simp at hcm
      returned := by
        intro hr
        have hr' := h.returned hr
        rw [hc] at hr'
        cases hr' }
  next c todo hc =>
    obtain ⟨s₁, hs₁, rfl⟩ := map_eq_some_iff.mp hs
    obtain ⟨hm, rfl⟩ := State.enter_eq_some hs₁
    simp only [hc] at hcl
    exact { h with
      workerSection := by
        rw [← h.workerSection, hm]
        exact iff_of_false (by simp) (by simp)
      closerSection := iff_of_true rfl ⟨todo, rfl⟩
      flagged := nofun
      clearing := by
        intro t c' hm'
        exact (Prod.mk.inj (some.inj hm')).1.symm
      cleared := by
        intro c' hc'
        by_cases hcc : c' = c
        · exact .inr (by rw [hcc])
        · left
          refine hcl c' fun hmem => ?_
          exact (mem_cons.mp hmem).elim hcc hc'
      returned := by
        intro hr
        have hr' := h.returned hr
        rw [hc] at hr'
        cases hr' }
  next hc =>
    obtain rfl := some.inj hs
    simp only [hc] at hcl
    exact { h with
      closerSection := by
        refine h.closerSection.trans ?_
        rw [hc]
        exact iff_of_false nofun nofun
      flagged := fun _ _ => .inl rfl
      cleared := fun c => hcl c not_mem_nil
      returned := fun _ => rfl
      silent := h.silent.concat (.inr nofun) }
  next => simp at hs
  next => simp at hs

theorem step (h : Sound s) {l : Label} (hs : (machine p).step s l = some s') : Sound s' := by
  cases l with
  | feed data => exact h.feed hs
  | feedFlag => exact h.feedFlag hs
  | worker => exact h.worker hs
  | reset ok => exact h.reset hs
  | handlerSend data => exact h.handlerAction (a := .send .handler data) nofun hs
  | handlerClosed => exact h.handlerAction (a := .callClosed .handler) nofun hs
  | handlerReturn => exact h.handlerReturn hs
  | otherSend data => exact h.otherSend hs
  | otherBusy => exact h.otherBusy hs
  | otherUnbusy => exact h.otherUnbusy hs
  | act => exact h.act hs
  | leave => exact h.leave hs
  | close => exact h.close hs

end Sound

end NikitaFirmware.Rpc
