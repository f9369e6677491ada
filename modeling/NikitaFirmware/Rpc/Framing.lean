import NikitaFirmware.Rpc.Sections

/-!
# Which messages a session handles

The bytes fed to a session are cut into messages by its decoder. As long as the worker is not
made to take the end of the stream for the end of a message, its handlers run on the complete
messages in order, up to the first that cannot be decoded or has no content, and that one is
answered by one `ERROR_DECODE` and one call of the closed callback.
-/

namespace NikitaFirmware.Rpc
open Foundations List Option

variable {M : Type} {p : Protocol M} {s s' : State M} {ms : List M} {cur rest : Bytes} {m : M}

section Traces

def Event.handled? : Event M → Option M
  | .handled m => some m
  | _ => none

/-- The messages whose handler has run, in order. -/
def handledIn (log : List (Event M)) : List M := log.filterMap Event.handled?

inductive ErrorEvent
  | decode
  | sent (data : Bytes)
  | closed
  deriving DecidableEq

def Event.error? : Event M → Option ErrorEvent
  | .errorDecode => some .decode
  | .sent .errorDecode data => some (.sent data)
  | .closed .errorDecode => some .closed
  | _ => none

/-- What the session has done about a message it could not decode. -/
def errorTrace (log : List (Event M)) : List ErrorEvent := log.filterMap Event.error?

def Event.IsHandled (e : Event M) : Prop := ∃ m, e = .handled m

theorem handledIn_concat (log : List (Event M)) (e : Event M) :
    handledIn (log ++ [e]) = handledIn log ++ e.handled?.toList := by
  rw [handledIn, filterMap_append]
  cases h : e.handled? with
  | none => rw [filterMap_cons_none h]; rfl
  | some m => rw [filterMap_cons_some h]; rfl

theorem errorTrace_concat (log : List (Event M)) (e : Event M) :
    errorTrace (log ++ [e]) = errorTrace log ++ e.error?.toList := by
  rw [errorTrace, filterMap_append]
  cases h : e.error? with
  | none => rw [filterMap_cons_none h]; rfl
  | some x => rw [filterMap_cons_some h]; rfl

theorem not_mem_of_errorTrace {log : List (Event M)} (h : errorTrace log = []) :
    .errorDecode ∉ log := by
  intro hmem
  have hx : ErrorEvent.decode ∈ errorTrace log := mem_filterMap.mpr ⟨_, hmem, rfl⟩
  rw [h] at hx
  exact absurd hx not_mem_nil

end Traces

/-- The bytes are a message that cannot be decoded, or one without content. -/
def Broken (p : Protocol M) (e : Bytes) : Prop :=
  p.decoder.start.Follows e .fail ∨
    ∃ m, p.decoder.start.Follows e (.ret m) ∧ p.disposition m = .contentless

/-- The messages `ms` at the front of the fed bytes have been dispatched, `rest` has not. -/
structure Dispatched (p : Protocol M) (s : State M) (ms : List M) (rest : Bytes) : Prop where
  messages : p.decoder.start.Messages s.fed ms rest
  contentful : ∀ m ∈ ms, p.disposition m ≠ .contentless
  handled : handledIn s.log = ms.filter (p.disposition · = .handle)

/-- Where the worker stands in the message of which it has read `cur`. -/
def Stage (p : Protocol M) : Pc M → Bytes → Prop
  | .decode d, cur => p.decoder.start.Follows cur d
  | .receive q received, cur | .wait q received, cur | .disconnect q received, cur =>
    ∃ a, cur = a ++ received ∧ p.decoder.start.Follows a q.start
  | .busy m, cur => p.decoder.start.Follows cur (.ret m) ∧ p.disposition m = .handle
  | .notImplemented m, cur =>
    p.decoder.start.Follows cur (.ret m) ∧ p.disposition m = .notImplemented
  | .failed, cur => Broken p cur
  | .handling _, cur | .unbusy, cur | .release, cur | .inSection (.handling _), cur
  | .inSection .release, cur => cur = []
  | .errorSend, _ | .errorClose, _ | .inSection .errorClose, _ | .ended, _ => False

/-- The worker is done with reading and will not run a handler any more. -/
def Quiet (p : Protocol M) : Pc M → Prop
  | .decode d => ∀ m, d.refuse = some m → p.disposition m ≠ .handle
  | .failed | .release | .ended => True
  | _ => False

/-- The worker reports a broken message, or waits for the disconnect after it. -/
def Sticky (p : Protocol M) : Pc M → Prop
  | .decode d => d = p.decoder.start
  | .receive q received | .wait q received | .disconnect q received =>
    q = p.decoder ∧ received = []
  | .errorSend | .errorClose | .inSection .errorClose | .inSection .release | .release => True
  | _ => False

/-- `ERROR_DECODE` has been passed to the transport, if the transport was still there. -/
def SentTrace (p : Protocol M) (callbacks : Callback → Bool) (t : List ErrorEvent) : Prop :=
  t = [.decode, .sent (p.encodeEmpty 0 .errorDecode)] ∨
    (t = [.decode] ∧ callbacks .sendBytes = false)

/-- After that the closed callback has been called, if it was still installed. -/
def ClosedTrace (p : Protocol M) (callbacks : Callback → Bool) (t : List ErrorEvent) : Prop :=
  ∃ t₀, SentTrace p callbacks t₀ ∧ (t = t₀ ++ [.closed] ∨ (t = t₀ ∧ callbacks .closed = false))

/-- How far the report of a broken message has come. -/
def Report (p : Protocol M) (mutex : Option (Thread × Option Action))
    (callbacks : Callback → Bool) (t : List ErrorEvent) : Pc M → Prop
  | .errorSend => t = []
  | .inSection .errorClose =>
    (mutex = some (.worker, some (.send .errorDecode (p.encodeEmpty 0 .errorDecode))) ∧
      t = [.decode]) ∨
    (mutex = some (.worker, none) ∧ SentTrace p callbacks t)
  | .errorClose => SentTrace p callbacks t
  | .inSection .release =>
    (mutex = some (.worker, some (.callClosed .errorDecode)) ∧ SentTrace p callbacks t) ∨
    (mutex = some (.worker, none) ∧ ClosedTrace p callbacks t)
  | _ => ClosedTrace p callbacks t

/-- The worker decodes, or does what follows a message that was decoded. -/
structure Decoding (p : Protocol M) (s : State M) (ms : List M) (cur : Bytes) : Prop where
  dispatched : Dispatched p s ms (cur ++ s.stream)
  live : s.terminate = false
  intact : s.decodeError = false
  stage : Stage p s.pc cur
  trace : errorTrace s.log = []

/-- The worker has taken the disconnect after the incomplete bytes `cur`. -/
structure Cut (p : Protocol M) (s : State M) (ms : List M) (cur : Bytes) : Prop where
  dispatched : Dispatched p s ms (cur ++ s.late)
  terminated : s.terminate = true
  intact : s.decodeError = false
  incomplete : p.decoder.start.Incomplete cur
  quiet : Quiet p s.pc
  trace : errorTrace s.log = []

/-- The worker has met a broken message at the front of `rest`. -/
structure Failed (p : Protocol M) (s : State M) (ms : List M) (rest : Bytes) : Prop where
  dispatched : Dispatched p s ms rest
  error : s.decodeError = true
  broken : ∃ e, e <+: rest ∧ Broken p e
  live : s.terminate = false → Sticky p s.pc
  terminated : s.terminate = true → Quiet p s.pc
  report : Report p s.callbacksMutex s.callbacks (errorTrace s.log) s.pc

/-- Actions that report an error belong to a worker that has met one. -/
def Action.IsError : Action → Prop
  | .send origin _ | .callClosed origin => origin = .errorDecode
  | .clear _ => False

def Mode (p : Protocol M) (s : State M) : Prop :=
  (∃ ms cur, Decoding p s ms cur) ∨ (∃ ms cur, Cut p s ms cur) ∨ ∃ ms rest, Failed p s ms rest

structure Tracked (p : Protocol M) (s : State M) : Prop where
  mode : Mode p s
  owned : ∀ t a, s.callbacksMutex = some (t, some a) → a.IsError →
    t = .worker ∧ s.decodeError = true
  ordered : NoneAfter .errorDecode Event.IsHandled s.log

/-- When the worker takes the disconnect on an empty buffer, its decoder does not take this end
of the stream for the end of a message that has a handler. -/
def CutRefused (p : Protocol M) (s : State M) : Label → Prop
  | .worker =>
    match s.pc with
    | .disconnect q _ => s.stream = [] →
      ∀ m ∈ q.eof.refuse, p.disposition m ≠ .handle
    | _ => True
  | _ => True

instance [DecidableEq M] (p : Protocol M) (s : State M) (l : Label) :
    Decidable (CutRefused p s l) :=
  match l with
  | .worker =>
    match h : s.pc with
    | .disconnect q _ =>
      decidable_of_iff (s.stream = [] → ∀ m ∈ q.eof.refuse, p.disposition m ≠ .handle)
        (by simp only [CutRefused, h])
    | .decode _ | .receive .. | .wait .. | .busy _ | .handling _ | .unbusy | .notImplemented _
    | .failed | .errorSend | .errorClose | .inSection _ | .release | .ended =>
      isTrue (by simp only [CutRefused, h])
  | .feed _ | .feedFlag | .reset _ | .handlerSend _ | .handlerClosed | .handlerReturn
  | .otherSend _ | .otherBusy | .otherUnbusy | .act | .leave | .close => isTrue trivial

section Frames

theorem Dispatched.of_fed {rest' : Bytes} (h : Dispatched p s ms rest) (hfed : s'.fed = s.fed)
    (hlog : handledIn s'.log = handledIn s.log) (hrest : rest' = rest) :
    Dispatched p s' ms rest' := by
  subst hrest
  exact ⟨by rw [hfed]; exact h.messages, h.contentful, by rw [hlog]; exact h.handled⟩

theorem Dispatched.append (h : Dispatched p s ms rest) {x : Bytes} (hfed : s'.fed = s.fed ++ x)
    (hlog : s'.log = s.log) : Dispatched p s' ms (rest ++ x) :=
  ⟨by rw [hfed]; exact h.messages.append x, h.contentful, by rw [hlog]; exact h.handled⟩

theorem Dispatched.snoc (h : Dispatched p s ms (cur ++ rest))
    (hm : p.decoder.start.Follows cur (.ret m)) (hc : p.disposition m ≠ .contentless)
    (hfed : s'.fed = s.fed) (hlog : handledIn s'.log = handledIn s.log ++
      if p.disposition m = .handle then [m] else []) : Dispatched p s' (ms ++ [m]) rest where
  messages := by
    rw [hfed]
    exact h.messages.snoc hm
  contentful := by
    intro x hx
    rcases mem_append.mp hx with hx | hx
    · exact h.contentful x hx
    · rw [mem_singleton.mp hx]
      exact hc
  handled := by
    rw [hlog, h.handled, filter_append]
    congr 1
    by_cases hd : p.disposition m = .handle <;> simp [hd]

theorem Event.not_isHandled {e : Event M} (he : e.handled? = none) : ¬ e.IsHandled := by
  rintro ⟨m, rfl⟩
  cases he

/-- A step that takes nothing of the bytes, runs no handler and reports nothing leaves the worker
where it was, if it may stand at its new place. -/
theorem Mode.transfer (h : Mode p s)
    (hsame : (s'.fed, s'.stream, s'.late, s'.terminate, s'.decodeError, handledIn s'.log,
      errorTrace s'.log) = (s.fed, s.stream, s.late, s.terminate, s.decodeError, handledIn s.log,
      errorTrace s.log))
    (hstage : s.terminate = false → ∀ cur, Stage p s.pc cur → Stage p s'.pc cur)
    (hquiet : s.terminate = true → Quiet p s.pc → Quiet p s'.pc)
    (hsticky : s.terminate = false → Sticky p s.pc → Sticky p s'.pc)
    (hreport : Report p s.callbacksMutex s.callbacks (errorTrace s.log) s.pc →
      Report p s'.callbacksMutex s'.callbacks (errorTrace s.log) s'.pc) : Mode p s' := by
  simp only [Prod.mk.injEq] at hsame
  obtain ⟨hfed, hstream, hlate, ht, he, hlog, htrace⟩ := hsame
  rcases h with ⟨ms, cur, h⟩ | ⟨ms, cur, h⟩ | ⟨ms, rest, h⟩
  · exact .inl ⟨ms, cur, {
      dispatched := h.dispatched.of_fed hfed hlog (by rw [hstream])
      live := ht.trans h.live
      intact := he.trans h.intact
      stage := hstage h.live cur h.stage
      trace := htrace.trans h.trace }⟩
  · exact .inr (.inl ⟨ms, cur, {
      dispatched := h.dispatched.of_fed hfed hlog (by rw [hlate])
      terminated := ht.trans h.terminated
      intact := he.trans h.intact
      incomplete := h.incomplete
      quiet := hquiet h.terminated h.quiet
      trace := htrace.trans h.trace }⟩)
  · exact .inr (.inr ⟨ms, rest, {
      dispatched := h.dispatched.of_fed hfed hlog rfl
      error := he.trans h.error
      broken := h.broken
      live := fun hl => hsticky (ht.symm.trans hl) (h.live (ht.symm.trans hl))
      terminated := fun hl => hquiet (ht.symm.trans hl) (h.terminated (ht.symm.trans hl))
      report := by rw [htrace]; exact hreport h.report }⟩)

theorem Mode.congr (h : Mode p s)
    (hsame : (s'.callbacksMutex, s'.callbacks, s'.pc, s'.log, s'.fed, s'.stream, s'.late,
      s'.terminate, s'.decodeError) = (s.callbacksMutex, s.callbacks, s.pc, s.log, s.fed, s.stream,
      s.late, s.terminate, s.decodeError)) : Mode p s' := by
  simp only [Prod.mk.injEq] at hsame
  obtain ⟨hmutex, hcallbacks, hpc, hlog, hfed, hstream, hlate, ht, he⟩ := hsame
  refine h.transfer (by rw [hlog, hfed, hstream, hlate, ht, he]) ?_ ?_ ?_ ?_ <;>
    simp only [hpc, hmutex, hcallbacks, imp_self, implies_true]

theorem Mode.emit (h : Mode p s) {e : Event M} (hh : e.handled? = none) (he : e.error? = none) :
    Mode p (s.emit e) := by
  have hlog : handledIn (s.log ++ [e]) = handledIn s.log := by
    rw [handledIn_concat, hh, toList_none, append_nil]
  have htrace : errorTrace (s.log ++ [e]) = errorTrace s.log := by
    rw [errorTrace_concat, he, toList_none, append_nil]
  refine h.transfer ?_ (fun _ _ => id) (fun _ => id) (fun _ => id) id
  rw [State.emit, hlog, htrace]

theorem Tracked.keep (h : Tracked p s) (hmode : Mode p s')
    (hm : s'.callbacksMutex = s.callbacksMutex)
    (he : s.decodeError = true → s'.decodeError = true) (hl : s'.log = s.log) :
    Tracked p s' where
  mode := hmode
  owned := by
    intro t a ha hx
    rw [hm] at ha
    exact ⟨(h.owned t a ha hx).1, he (h.owned t a ha hx).2⟩
  ordered := by
    rw [hl]
    exact h.ordered

theorem Tracked.emit (h : Tracked p s) {e : Event M} (hh : e.handled? = none)
    (he : e.error? = none) : Tracked p (s.emit e) where
  mode := h.mode.emit hh he
  owned := h.owned
  ordered := h.ordered.concat (.inr (Event.not_isHandled hh))

theorem Tracked.emitIf (h : Tracked p s) {c : Callback} {e : Event M} (hh : e.handled? = none)
    (he : e.error? = none) : Tracked p (s.emitIf c e) := by
  rw [State.emitIf]
  split
  · exact h.emit hh he
  · exact h

end Frames

section Worker

theorem Mode.dispatch (h : Mode p s) (hpc : s.pc = .decode (.ret m)) : Mode p (dispatch p m s) := by
  have hsticky : ¬ Sticky p s.pc := by
    rw [hpc]
    exact nofun
  have hrelease : s.terminate = true → Mode p { s with pc := .release } := by
    intro ht
    refine h.transfer rfl ?_ (fun _ _ => trivial) (fun _ hst => absurd hst hsticky) ?_ <;> rw [hpc]
    · exact fun hl => absurd (ht.symm.trans hl) (by decide)
    · exact id
  rw [Rpc.dispatch]
  split
  next hd =>
    refine h.transfer rfl ?_ ?_ (fun _ hst => absurd hst hsticky) ?_ <;> rw [hpc]
    · exact fun _ _ hm => ⟨hm, hd⟩
    · exact fun _ hq => absurd hd (hq m rfl)
    · exact id
  next hd =>
    refine h.transfer rfl ?_ (fun _ _ => trivial) (fun _ hst => absurd hst hsticky) ?_ <;> rw [hpc]
    · exact fun _ _ hm => .inr ⟨m, hm, hd⟩
    · exact id
  next hd =>
    by_cases ht : s.terminate = true
    · rw [if_pos ht]
      exact hrelease ht
    · rw [if_neg ht]
      refine h.transfer rfl ?_ (fun hl => absurd hl ht) (fun _ hst => absurd hst hsticky) ?_ <;>
        rw [hpc]
      · exact fun _ _ hm => ⟨hm, hd⟩
      · exact id
  next hd =>
    by_cases ht : s.terminate = true
    · exact hrelease ht
    · rcases h with ⟨ms, cur, h⟩ | ⟨ms, cur, h⟩ | ⟨ms, rest, h⟩
      · have hm := h.stage
        rw [hpc] at hm
        refine .inl ⟨ms ++ [m], [], { h with dispatched := ?_, stage := rfl }⟩
        refine h.dispatched.snoc hm (by rw [hd]; decide) rfl ?_
        rw [hd, if_neg (by decide), append_nil]
      · exact absurd h.terminated ht
      · exact absurd (h.live (Bool.eq_false_iff.mpr ht)) hsticky

variable {q : Request M}

theorem Decoding.receive (h : Decoding p s ms cur) {received : Bytes}
    (hpc : s.pc = .receive q received) :
    Decoding p { s with
      stream := s.stream.drop (q.n + 1 - received.length)
      pc := if (gather q received s).length = q.n + 1 then .decode (q.next (gather q received s))
        else .wait q (gather q received s) } ms
      (cur ++ s.stream.take (q.n + 1 - received.length)) := by
  obtain ⟨a, rfl, ha⟩ : ∃ a, cur = a ++ received ∧ p.decoder.start.Follows a q.start := by
    have hst := h.stage
    rwa [hpc] at hst
  have hg : gather q received s = received ++ s.stream.take (q.n + 1 - received.length) := by
    rw [gather, if_neg (by rw [h.intact]; decide)]
  refine { h with dispatched := h.dispatched.of_fed rfl rfl ?_, stage := ?_ }
  · rw [append_assoc, append_assoc, take_append_drop, ← append_assoc]
  · show Stage p (if _ then _ else _) _
    rw [append_assoc, ← hg]
    split
    next hfull => exact ha.answer hfull
    next => exact ⟨a, rfl, ha⟩

theorem Failed.receive (h : Failed p s ms rest) (ht : s.terminate = false)
    {received : Bytes} (hpc : s.pc = .receive q received) :
    Failed p { s with
      stream := s.stream.drop (q.n + 1 - received.length)
      pc := if (gather q received s).length = q.n + 1 then .decode (q.next (gather q received s))
        else .wait q (gather q received s) } ms rest := by
  have hg : gather q received s = [] := by rw [gather, if_pos h.error]
  have hst := h.live ht
  have hr := h.report
  rw [hpc] at hst hr
  rw [hg, if_neg (by simp)]
  exact { h with
    dispatched := h.dispatched.of_fed rfl rfl rfl
    live := fun _ => ⟨hst.1, rfl⟩
    terminated := fun ht' => by rw [ht] at ht'; cases ht'
    report := hr }

theorem Tracked.notifyEmpty (h : Tracked p s) : Tracked p (notifyEmpty s) := by
  rw [Rpc.notifyEmpty]
  split
  · exact h.emitIf (e := .bufferIsEmpty) rfl rfl
  · exact h

theorem Mode.decodeFail (h : Mode p s) (hpc : s.pc = .decode .fail) :
    Mode p { s with pc := .failed } := by
  refine h.transfer rfl ?_ (fun _ _ => trivial) ?_ ?_ <;> rw [hpc]
  · exact fun _ _ => .inl
  · exact fun _ hst => absurd hst nofun
  · exact id

theorem Mode.decodeRead (h : Mode p s) (hpc : s.pc = .decode q.start) :
    Mode p { s with pc := if s.terminate then .decode q.refused else .receive q [] } := by
  by_cases ht : s.terminate = true
  · rw [if_pos ht]
    refine h.transfer rfl ?_ ?_ ?_ ?_ <;> rw [hpc]
    · exact fun hl => absurd (ht.symm.trans hl) (by decide)
    · exact fun _ => id
    · exact fun hl => absurd (ht.symm.trans hl) (by decide)
    · exact id
  · rw [if_neg ht]
    refine h.transfer rfl ?_ (fun hl => absurd hl ht) ?_ ?_ <;> rw [hpc]
    · exact fun _ cur hst => ⟨cur, (append_nil _).symm, hst⟩
    · intro _ hst
      obtain ⟨n, next, eof, refused⟩ := q
      injection hst with h₁ h₂ h₃ h₄
      subst h₁ h₂ h₃ h₄
      exact ⟨rfl, rfl⟩
    · exact id

theorem Mode.terminate (h : Mode p s) (hs : Sound s) {received : Bytes}
    (hpc : s.pc = .disconnect q received) (hempty : s.stream = [])
    (hcut : ∀ m ∈ q.eof.refuse, p.disposition m ≠ .handle) :
    Mode p { s with terminate := true, pc := .decode q.eof } := by
  have hroom : received.length ≤ q.n := by
    have hroom := hs.room
    rwa [hpc] at hroom
  have ht : s.terminate = false := by
    by_contra ht
    have hread := hs.reading ((Bool.not_eq_false _).mp ht)
    rw [hpc] at hread
    cases hread
  rcases h with ⟨ms, cur, h⟩ | ⟨ms, cur, h⟩ | ⟨ms, rest, h⟩
  · refine .inr (.inl ⟨ms, cur, { h with
      dispatched := h.dispatched.of_fed rfl rfl ?_
      terminated := rfl
      incomplete := ?_
      quiet := hcut }⟩)
    · show cur ++ s.late = cur ++ s.stream
      rw [hs.late ht, hempty]
    · have hst := h.stage
      rw [hpc] at hst
      obtain ⟨a, rfl, ha⟩ := hst
      exact ha.incomplete hroom
  · cases ht.symm.trans h.terminated
  · have hr := h.report
    rw [hpc] at hr
    exact .inr (.inr ⟨ms, rest, { h with
      dispatched := h.dispatched.of_fed rfl rfl rfl
      live := nofun
      terminated := fun _ => hcut
      report := hr }⟩)

theorem Mode.decoding (h : Mode p s) (hq : ¬ Quiet p s.pc) (hst : ¬ Sticky p s.pc) :
    ∃ ms cur, Decoding p s ms cur := by
  rcases h with h | ⟨ms, cur, h⟩ | ⟨ms, rest, h⟩
  · exact h
  · exact absurd h.quiet hq
  · cases ht : s.terminate with
    | false => exact absurd (h.live ht) hst
    | true => exact absurd (h.terminated ht) hq

theorem Mode.failed (h : Mode p s) (hq : ¬ Quiet p s.pc) (hst : ∀ cur, ¬ Stage p s.pc cur) :
    s.terminate = false ∧ ∃ ms rest, Failed p s ms rest := by
  rcases h with ⟨ms, cur, h⟩ | ⟨ms, cur, h⟩ | ⟨ms, rest, h⟩
  · exact absurd h.stage (hst cur)
  · exact absurd h.quiet hq
  · refine ⟨?_, ms, rest, h⟩
    by_contra ht
    exact hq (h.terminated ((Bool.not_eq_false _).mp ht))

theorem Tracked.busy (h : Tracked p s) (hpc : s.pc = .busy m) :
    Tracked p ({ s with busyMutex := some .worker, pc := .handling m }.emit (.handled m)) := by
  obtain ⟨ms, cur, hd⟩ := h.mode.decoding (by rw [hpc]; exact id) (by rw [hpc]; exact id)
  obtain ⟨hm, hhandle⟩ : p.decoder.start.Follows cur (.ret m) ∧ p.disposition m = .handle := by
    have hst := hd.stage
    rwa [hpc] at hst
  have hlog : handledIn (s.log ++ [.handled m]) = handledIn s.log ++ [m] := handledIn_concat _ _
  have htrace : errorTrace (s.log ++ [.handled m]) = errorTrace s.log ++ [] :=
    errorTrace_concat _ _
  exact {
    mode := .inl ⟨ms ++ [m], [], { hd with
      dispatched := hd.dispatched.snoc hm (by rw [hhandle]; decide) rfl
        (by rw [hhandle]; exact hlog)
      stage := rfl
      trace := by
        refine htrace.trans ?_
        rw [append_nil]
        exact hd.trace }⟩
    owned := h.owned
    ordered := h.ordered.concat (.inl (not_mem_of_errorTrace hd.trace)) }

theorem Mode.unbusy (h : Mode p s) (hpc : s.pc = .unbusy) :
    Mode p { s with busyMutex := none, pc := .release } := by
  refine h.transfer rfl ?_ ?_ ?_ ?_ <;> rw [hpc]
  · exact fun _ _ => id
  · exact fun _ => False.elim
  · exact fun _ => False.elim
  · exact id

theorem Tracked.enter (h : Tracked p s) {a : Action} (ha : ¬ a.IsError) {pc : Pc M}
    (hmode : Mode p { s with callbacksMutex := some (.worker, some a), pc := pc }) :
    Tracked p { s with callbacksMutex := some (.worker, some a), pc := pc } where
  mode := hmode
  owned := by
    intro t x hx he
    obtain ⟨-, hx⟩ := Prod.mk.inj (some.inj hx)
    exact absurd (some.inj hx ▸ he) ha
  ordered := h.ordered

theorem Tracked.notImplemented (h : Tracked p s) (hpc : s.pc = .notImplemented m)
    (data : Bytes) : Tracked p { s with
      callbacksMutex := some (.worker, some (.send .notImplemented data))
      pc := .inSection .release } := by
  obtain ⟨ms, cur, hd⟩ := h.mode.decoding (by rw [hpc]; exact id) (by rw [hpc]; exact id)
  obtain ⟨hm, hni⟩ : p.decoder.start.Follows cur (.ret m) ∧ p.disposition m = .notImplemented := by
    have hst := hd.stage
    rwa [hpc] at hst
  have hne : Origin.notImplemented ≠ .errorDecode := by decide
  refine h.enter (a := .send .notImplemented data) hne
    (.inl ⟨ms ++ [m], [], { hd with dispatched := ?_, stage := rfl }⟩)
  refine hd.dispatched.snoc hm (by rw [hni]; decide) rfl ?_
  rw [hni, if_neg (by decide), append_nil]

theorem Tracked.errorSend (h : Tracked p s) (hpc : s.pc = .errorSend) : Tracked p ({ s with
      callbacksMutex := some (.worker, some (.send .errorDecode (p.encodeEmpty 0 .errorDecode)))
      pc := .inSection .errorClose }.emit .errorDecode) := by
  obtain ⟨ht, ms, rest, hf⟩ := h.mode.failed (by rw [hpc]; exact id)
    (by rw [hpc]; exact fun _ => id)
  have hr := hf.report
  rw [hpc] at hr
  have hlog : handledIn (s.log ++ [.errorDecode]) = handledIn s.log ++ [] := handledIn_concat _ _
  have htrace : errorTrace (s.log ++ [.errorDecode]) = errorTrace s.log ++ [.decode] :=
    errorTrace_concat _ _
  exact {
    mode := .inr (.inr ⟨ms, rest, { hf with
      dispatched := hf.dispatched.of_fed rfl (hlog.trans (append_nil _)) rfl
      live := fun _ => trivial
      terminated := fun ht' => absurd (ht.symm.trans ht') (by decide)
      report := by
        refine .inl ⟨rfl, htrace.trans ?_⟩
        rw [hr]
        rfl }⟩)
    owned := by
      intro t a ha _
      obtain ⟨ht, -⟩ := Prod.mk.inj (some.inj ha)
      exact ⟨ht.symm, hf.error⟩
    ordered := h.ordered.concat (.inr (Event.not_isHandled rfl)) }

theorem Tracked.errorClose (h : Tracked p s) (hpc : s.pc = .errorClose) : Tracked p { s with
      callbacksMutex := some (.worker, some (.callClosed .errorDecode))
      pc := .inSection .release } := by
  obtain ⟨ht, ms, rest, hf⟩ := h.mode.failed (by rw [hpc]; exact id)
    (by rw [hpc]; exact fun _ => id)
  have hr := hf.report
  rw [hpc] at hr
  exact {
    mode := .inr (.inr ⟨ms, rest, { hf with
      dispatched := hf.dispatched.of_fed rfl rfl rfl
      live := fun _ => trivial
      terminated := fun ht' => absurd (ht.symm.trans ht') (by decide)
      report := .inl ⟨rfl, hr⟩ }⟩)
    owned := by
      intro t a ha _
      obtain ⟨ht, -⟩ := Prod.mk.inj (some.inj ha)
      exact ⟨ht.symm, hf.error⟩
    ordered := h.ordered }

theorem Mode.release (h : Mode p s) (hpc : s.pc = .release) :
    Mode p { s with pc := if s.terminate then .ended else .decode p.decoder.start } := by
  by_cases ht : s.terminate = true
  · rw [if_pos ht]
    refine h.transfer rfl ?_ (fun _ _ => trivial) ?_ ?_ <;> rw [hpc]
    · exact fun hl => absurd (ht.symm.trans hl) (by decide)
    · exact fun hl => absurd (ht.symm.trans hl) (by decide)
    · exact id
  · rw [if_neg ht]
    refine h.transfer rfl ?_ (fun hl => absurd hl ht) (fun _ _ => rfl) ?_ <;> rw [hpc]
    · rintro - cur rfl
      exact .refl _
    · exact id

theorem Tracked.receive (h : Tracked p s) (hs : Sound s) {received : Bytes}
    (hpc : s.pc = .receive q received) : Tracked p (receive q received s) := by
  have ht : s.terminate = false := by
    by_contra ht
    have hread := hs.reading ((Bool.not_eq_false _).mp ht)
    rw [hpc] at hread
    cases hread
  rw [Rpc.receive]
  refine Tracked.notifyEmpty (h.keep ?_ rfl id rfl)
  rcases h.mode with ⟨ms, cur, hd⟩ | ⟨ms, cur, hc⟩ | ⟨ms, rest, hf⟩
  · exact .inl ⟨ms, _, hd.receive hpc⟩
  · cases ht.symm.trans hc.terminated
  · exact .inr (.inr ⟨ms, rest, hf.receive ht hpc⟩)

theorem dispatch_log (m : M) (s : State M) : (dispatch p m s).callbacksMutex = s.callbacksMutex ∧
    (dispatch p m s).decodeError = s.decodeError ∧ (dispatch p m s).log = s.log := by
  rw [dispatch]
  split <;> exact ⟨rfl, rfl, rfl⟩

/-- The only step that consumes bytes: the log grows by what the framing of these bytes delivers. -/
theorem Tracked.worker (h : Tracked p s) (hs : Sound s) (hc : CutRefused p s .worker)
    (hw : worker p s = some s') : Tracked p s' := by
  have ht : s.pc.reading = true → s.terminate = false := by
    intro hread
    by_contra ht
    have hno := hs.reading ((Bool.not_eq_false _).mp ht)
    rw [hread] at hno
    cases hno
  rw [Rpc.worker] at hw
  cases hpc : s.pc with
  | decode d =>
    cases d with
    | ret m =>
      simp only [hpc, some.injEq] at hw
      subst hw
      obtain ⟨hm, he, hl⟩ := dispatch_log (p := p) m s
      exact h.keep (h.mode.dispatch hpc) hm (by rw [he]; exact id) hl
    | fail =>
      simp only [hpc, some.injEq] at hw
      subst hw
      exact h.keep (h.mode.decodeFail hpc) rfl id rfl
    | read n next eof refused =>
      simp only [hpc] at hw
      have hmode := h.mode.decodeRead (q := ⟨n, next, eof, refused⟩) hpc
      split at hw
      next htr =>
        obtain rfl := some.inj hw
        rw [if_pos htr] at hmode
        exact h.keep hmode rfl id rfl
      next htr =>
        obtain rfl := some.inj hw
        rw [if_neg htr] at hmode
        exact h.keep hmode rfl id rfl
  | receive q received =>
    simp only [hpc, some.injEq] at hw
    subst hw
    exact h.receive hs hpc
  | wait q received =>
    simp only [hpc] at hw
    rw [wake] at hw
    split at hw
    · obtain rfl := some.inj hw
      have hlive := ht (by rw [hpc]; rfl)
      refine h.keep (h.mode.transfer rfl ?_ (fun hl => ?_) ?_ ?_) rfl id rfl
      · rw [hpc]
        intro _ cur hst
        split <;> exact hst
      · cases hlive.symm.trans hl
      · rw [hpc]
        intro _ hst
        split <;> exact hst
      · rw [hpc]
        intro hr
        split <;> exact hr
    · simp at hw
  | disconnect q received =>
    simp only [hpc, some.injEq] at hw
    subst hw
    rw [CutRefused, hpc] at hc
    rw [testEmpty]
    split
    -- the stream ends here: a message cut short has been refused
    next hempty => exact h.keep (h.mode.terminate hs hpc hempty (hc hempty)) rfl id rfl
    next =>
      have hlive := ht (by rw [hpc]; rfl)
      refine h.keep (h.mode.transfer rfl ?_ (fun hl => ?_) ?_ ?_) rfl id rfl
      · rw [hpc]
        exact fun _ _ => id
      · cases hlive.symm.trans hl
      · rw [hpc]
        exact fun _ => id
      · rw [hpc]
        exact id
  | busy m =>
    simp only [hpc] at hw
    split at hw
    · obtain rfl := some.inj hw
      exact h.busy hpc
    · simp at hw
  | unbusy =>
    simp only [hpc, some.injEq] at hw
    subst hw
    exact h.keep (h.mode.unbusy hpc) rfl id rfl
  | notImplemented m =>
    simp only [hpc] at hw
    obtain ⟨s₁, hs₁, rfl⟩ := map_eq_some_iff.mp hw
    obtain ⟨-, rfl⟩ := State.enter_eq_some hs₁
    exact h.notImplemented hpc _
  | errorSend =>
    simp only [hpc] at hw
    obtain ⟨s₁, hs₁, rfl⟩ := map_eq_some_iff.mp hw
    obtain ⟨-, rfl⟩ := State.enter_eq_some hs₁
    exact h.errorSend hpc
  | errorClose =>
    simp only [hpc] at hw
    obtain ⟨s₁, hs₁, rfl⟩ := map_eq_some_iff.mp hw
    obtain ⟨-, rfl⟩ := State.enter_eq_some hs₁
    exact h.errorClose hpc
  | release =>
    simp only [hpc, some.injEq] at hw
    subst hw
    exact h.keep (h.mode.release hpc) rfl id rfl
  | handling m | failed | inSection next | ended =>
    simp [hpc] at hw

end Worker

section Others

theorem Tracked.feed (h : Tracked p s) {data : Bytes}
    (hf : feed data s = some s') : Tracked p s' := by
  rw [Rpc.feed] at hf
  split at hf
  · obtain rfl := some.inj hf
    refine h.keep ?_ rfl id rfl
    rcases h.mode with ⟨ms, cur, hd⟩ | ⟨ms, cur, hc⟩ | ⟨ms, rest, hf⟩
    · refine .inl ⟨ms, cur, { hd with dispatched := ?_ }⟩
      rw [← append_assoc]
      exact hd.dispatched.append rfl rfl
    · refine .inr (.inl ⟨ms, cur, { hc with dispatched := ?_ }⟩)
      show Dispatched p _ ms (cur ++ if s.terminate then s.late ++ data else s.late)
      rw [if_pos hc.terminated, ← append_assoc]
      exact hc.dispatched.append rfl rfl
    · obtain ⟨e, he, hb⟩ := hf.broken
      exact .inr (.inr ⟨ms, rest ++ data, { hf with
        dispatched := hf.dispatched.append rfl rfl
        broken := ⟨e, he.trans (List.prefix_append _ _), hb⟩ }⟩)
  · simp at hf

theorem Tracked.reset (h : Tracked p s) {ok : Bool} (hr : reset ok s = some s') : Tracked p s' := by
  rw [Rpc.reset] at hr
  cases hpc : s.pc with
  | failed =>
    simp only [hpc] at hr
    split at hr
    next ht =>
      obtain rfl := some.inj hr
      refine h.keep ?_ rfl id rfl
      rcases h.mode with ⟨ms, cur, hd⟩ | ⟨ms, cur, hc⟩ | ⟨ms, rest, hf⟩
      · cases ht.symm.trans hd.live
      · exact .inr (.inl ⟨ms, cur, { hc with
          dispatched := hc.dispatched.of_fed rfl rfl rfl
          quiet := trivial }⟩)
      · have hrep := hf.report
        rw [hpc] at hrep
        exact .inr (.inr ⟨ms, rest, { hf with
          dispatched := hf.dispatched.of_fed rfl rfl rfl
          live := fun ht' => absurd (ht.symm.trans ht') (by decide)
          terminated := fun _ => trivial
          report := hrep }⟩)
    next ht =>
      obtain rfl := some.inj hr
      refine h.keep ?_ rfl (fun _ => rfl) rfl
      rcases h.mode with ⟨ms, cur, hd⟩ | ⟨ms, cur, hc⟩ | ⟨ms, rest, hf⟩
      · have hst := hd.stage
        rw [hpc] at hst
        exact .inr (.inr ⟨ms, cur ++ s.stream, {
          dispatched := hd.dispatched.of_fed rfl rfl rfl
          error := rfl
          broken := ⟨cur, List.prefix_append _ _, hst⟩
          live := fun _ => trivial
          terminated := fun ht' => absurd ht' ht
          report := hd.trace }⟩)
      · exact absurd hc.terminated ht
      · have hst := hf.live (Bool.eq_false_iff.mpr ht)
        rw [hpc] at hst
        exact absurd hst id
  | _ => simp [hpc] at hr

theorem Tracked.handlerAction (h : Tracked p s) {a : Action} (ha : ¬ a.IsError)
    (hr : handlerAction a s = some s') : Tracked p s' := by
  rw [Rpc.handlerAction] at hr
  cases hpc : s.pc with
  | handling m =>
    simp only [hpc] at hr
    obtain ⟨s₁, hs₁, rfl⟩ := map_eq_some_iff.mp hr
    obtain ⟨-, rfl⟩ := State.enter_eq_some hs₁
    refine h.enter ha (h.mode.transfer rfl ?_ ?_ ?_ ?_) <;> rw [hpc]
    · exact fun _ _ => id
    · exact fun _ => False.elim
    · exact fun _ => False.elim
    · exact id
  | _ => simp [hpc] at hr

theorem Tracked.handlerReturn (h : Tracked p s) (hr : handlerReturn s = some s') :
    Tracked p s' := by
  rw [Rpc.handlerReturn] at hr
  cases hpc : s.pc with
  | handling m =>
    simp only [hpc, some.injEq] at hr
    subst hr
    refine h.keep (h.mode.transfer rfl ?_ ?_ ?_ ?_) rfl id rfl <;> rw [hpc]
    · exact fun _ _ => id
    · exact fun _ => False.elim
    · exact fun _ => False.elim
    · exact id
  | _ => simp [hpc] at hr

theorem Mode.setMutex (h : Mode p s) (hpc : s.pc.holdsSection = false)
    (mutex : Option (Thread × Option Action)) : Mode p { s with callbacksMutex := mutex } := by
  refine h.transfer rfl (fun _ _ => id) (fun _ => id) (fun _ => id) ?_
  cases hp : s.pc with
  | inSection next =>
    rw [hp] at hpc
    cases hpc
  | _ => exact id

theorem Tracked.setMutex (h : Tracked p s) (hpc : s.pc.holdsSection = false)
    (mutex : Option (Thread × Option Action))
    (hm : ∀ t a, mutex = some (t, some a) → ¬ a.IsError) :
    Tracked p { s with callbacksMutex := mutex } where
  mode := h.mode.setMutex hpc mutex
  owned := fun t a ha he => absurd he (hm t a ha)
  ordered := h.ordered

theorem Report.mono {mutex : Option (Thread × Option Action)} {cb cb' : Callback → Bool}
    (hcb : ∀ c, cb c = false → cb' c = false) {t : List ErrorEvent} {pc : Pc M}
    (h : Report p mutex cb t pc) : Report p mutex cb' t pc := by
  have hsent : ∀ t, SentTrace p cb t → SentTrace p cb' t := fun t ht =>
    ht.imp_right fun ht => ⟨ht.1, hcb _ ht.2⟩
  have hclosed : ClosedTrace p cb t → ClosedTrace p cb' t := by
    rintro ⟨t₀, ht₀, ht⟩
    exact ⟨t₀, hsent t₀ ht₀, ht.imp_right fun ht => ⟨ht.1, hcb _ ht.2⟩⟩
  cases pc with
  | errorSend => exact h
  | errorClose => exact hsent t h
  | inSection next =>
    cases next with
    | errorClose => exact h.imp_right fun h => ⟨h.1, hsent t h.2⟩
    | release => exact h.imp (fun h => ⟨h.1, hsent t h.2⟩) fun h => ⟨h.1, hclosed h.2⟩
    | handling m => exact hclosed h
  | _ => exact hclosed h

theorem Tracked.clear (h : Tracked p s) (hpc : s.pc.holdsSection = false) (c : Callback)
    (t : Thread) : Tracked p { s with
      callbacks := Function.update s.callbacks c false
      callbacksMutex := some (t, none) } := by
  have hcb : ∀ c', s.callbacks c' = false → Function.update s.callbacks c false c' = false := by
    intro c' hc'
    by_cases hcc : c' = c
    · rw [hcc, Function.update_self]
    · rwa [Function.update_of_ne hcc]
  have h₁ : Tracked p { s with callbacks := Function.update s.callbacks c false } :=
    h.keep (h.mode.transfer rfl (fun _ _ => id) (fun _ => id) (fun _ => id) (.mono hcb)) rfl id rfl
  exact h₁.setMutex hpc _ nofun

theorem Tracked.called (h : Tracked p s) {t : Thread} {a : Action}
    (hm : s.callbacksMutex = some (t, some a)) (ha : ¬ a.IsError) {c : Callback} {e : Event M}
    (hh : e.handled? = none) (he : e.error? = none) :
    Tracked p { s.emitIf c e with callbacksMutex := some (t, none) } := by
  -- in a section of the report the action would be one of the report
  have hmode : Mode p { s with callbacksMutex := some (t, none) } := by
    have hno : ∀ x : Action, x.IsError → some (t, some a) ≠ some (.worker, some x) := by
      intro x hx heq
      obtain ⟨-, heq⟩ := Prod.mk.inj (some.inj heq)
      exact ha (some.inj heq ▸ hx)
    refine h.mode.transfer rfl (fun _ _ => id) (fun _ => id) (fun _ => id) fun hr => ?_
    show Report p (some (t, none)) s.callbacks (errorTrace s.log) s.pc
    rw [hm] at hr
    cases hp : s.pc with
    | inSection next =>
      rw [hp] at hr
      cases next with
      | handling m => exact hr
      | errorClose =>
        rcases hr with ⟨heq, -⟩ | ⟨heq, -⟩
        · exact absurd heq (hno _ rfl)
        · cases heq
      | release =>
        rcases hr with ⟨heq, -⟩ | ⟨heq, -⟩
        · exact absurd heq (hno _ rfl)
        · cases heq
    | _ =>
      rw [hp] at hr
      exact hr
  have h₁ : Tracked p { s with callbacksMutex := some (t, none) } := {
    mode := hmode
    owned := fun _ _ ha => absurd ha (by simp)
    ordered := h.ordered }
  have h₂ := h₁.emitIf (c := c) hh he
  have heq : State.emitIf { s with callbacksMutex := some (t, none) } c e =
      { s.emitIf c e with callbacksMutex := some (t, none) } := by
    simp only [State.emitIf]
    split <;> rfl
  rwa [heq] at h₂

/-- The worker has called back with an error event, or found no callback for it. -/
theorem Failed.reported {ms : List M} {rest : Bytes} {c : Callback} {e : Event M}
    (hf : Failed p s ms rest) (h : Tracked p s) (hhand : handledIn (s.log ++ [e]) = handledIn s.log)
    (he : ¬ e.IsHandled)
    (hsent : Report p (some (.worker, none)) s.callbacks (errorTrace (s.log ++ [e])) s.pc)
    (hsilent : s.callbacks c = false →
      Report p (some (.worker, none)) s.callbacks (errorTrace s.log) s.pc) :
    Tracked p { s.emitIf c e with callbacksMutex := some (.worker, none) } := by
  rw [State.emitIf]
  split
  next =>
    exact {
      mode := .inr (.inr ⟨ms, rest, { hf with
        dispatched := hf.dispatched.of_fed rfl hhand rfl
        report := hsent }⟩)
      owned := fun _ _ ha => absurd ha (by simp)
      ordered := h.ordered.concat (.inr he) }
  next hcb =>
    exact {
      mode := .inr (.inr ⟨ms, rest, { hf with
        dispatched := hf.dispatched.of_fed rfl rfl rfl
        report := hsilent (Bool.eq_false_iff.mpr hcb) }⟩)
      owned := fun _ _ ha => absurd ha (by simp)
      ordered := h.ordered }

theorem Tracked.report (h : Tracked p s) (hs : Sound s) {t : Thread} {a : Action}
    (hm : s.callbacksMutex = some (t, some a)) (ha : a.IsError) :
    Tracked p { s.perform a with callbacksMutex := some (t, none) } := by
  obtain ⟨rfl, herr⟩ := h.owned t a hm ha
  have hsec : s.pc.holdsSection = true := hs.workerSection.mp (by rw [hm]; rfl)
  obtain ⟨ht, ms, rest, hf⟩ : s.terminate = false ∧ ∃ ms rest, Failed p s ms rest := by
    rcases h.mode with ⟨ms, cur, hd⟩ | ⟨ms, cur, hc⟩ | ⟨ms, rest, hf⟩
    · cases herr.symm.trans hd.intact
    · cases herr.symm.trans hc.intact
    · refine ⟨?_, ms, rest, hf⟩
      by_contra ht
      have hq := hf.terminated ((Bool.not_eq_false _).mp ht)
      cases hp : s.pc with
      | inSection next =>
        rw [hp] at hq
        exact hq
      | _ =>
        rw [hp] at hsec
        cases hsec
  have hst := hf.live ht
  have hr := hf.report
  rw [hm] at hr
  cases hp : s.pc with
  | inSection next =>
    rw [hp] at hr hst
    cases next with
    | handling m => exact absurd hst id
    | errorClose =>
      rcases hr with ⟨heq, htr⟩ | ⟨heq, -⟩
      · obtain rfl : a = .send .errorDecode (p.encodeEmpty 0 .errorDecode) :=
          some.inj (Prod.mk.inj (some.inj heq)).2
        refine hf.reported h ((handledIn_concat ..).trans (append_nil _)) (Event.not_isHandled rfl)
          ?_ fun hcb => ?_
        · rw [hp, errorTrace_concat, htr]
          exact .inr ⟨rfl, .inl rfl⟩
        · rw [hp, htr]
          exact .inr ⟨rfl, .inr ⟨rfl, hcb⟩⟩
      · cases heq
    | release =>
      rcases hr with ⟨heq, htr⟩ | ⟨heq, -⟩
      · obtain rfl : a = .callClosed .errorDecode :=
          some.inj (Prod.mk.inj (some.inj heq)).2
        refine hf.reported h ((handledIn_concat ..).trans (append_nil _)) (Event.not_isHandled rfl)
          ?_ fun hcb => ?_
        · rw [hp, errorTrace_concat]
          exact .inr ⟨rfl, _, htr, .inl rfl⟩
        · rw [hp]
          exact .inr ⟨rfl, _, htr, .inr ⟨rfl, hcb⟩⟩
      · cases heq
  | _ =>
    rw [hp] at hsec
    cases hsec

theorem Origin.error?_sent {o : Origin} (ho : o ≠ .errorDecode) (data : Bytes) :
    (Event.sent o data : Event M).error? = none := by
  cases o <;> first | rfl | exact absurd rfl ho

theorem Origin.error?_closed {o : Origin} (ho : o ≠ .errorDecode) :
    (Event.closed o : Event M).error? = none := by
  cases o <;> first | rfl | exact absurd rfl ho

theorem Tracked.act (h : Tracked p s) (hs : Sound s) (ha : act s = some s') : Tracked p s' := by
  rw [Rpc.act] at ha
  split at ha
  next t a hm =>
    obtain rfl := some.inj ha
    by_cases he : a.IsError
    · exact h.report hs hm he
    · cases a with
      | send o data =>
        exact h.called (a := .send o data) (e := .sent o data) hm he rfl (Origin.error?_sent he _)
      | callClosed o =>
        exact h.called (a := .callClosed o) (e := .closed o) hm he rfl (Origin.error?_closed he)
      | clear c =>
        obtain rfl := hs.clearing t c hm
        refine h.clear ?_ c _
        by_contra hsec
        have hw := hs.workerSection.mpr ((Bool.not_eq_false _).mp hsec)
        rw [hm] at hw
        cases hw
  next => simp at ha

theorem Sound.outside (hs : Sound s) (hm : s.callbacksMutex.map Prod.fst ≠ some .worker) :
    s.pc.holdsSection = false :=
  Bool.eq_false_iff.mpr (mt hs.workerSection.mpr hm)

theorem Tracked.leave (h : Tracked p s) (hs : Sound s) (hl : leave s = some s') : Tracked p s' := by
  rw [Rpc.leave] at hl
  split at hl
  next hm =>
    split at hl
    next next hpc =>
      obtain rfl := some.inj hl
      refine { mode := ?_, owned := fun _ _ ha => absurd ha (by simp), ordered := h.ordered }
      refine h.mode.transfer rfl ?_ ?_ ?_ ?_ <;> rw [hpc]
      · intro _ cur hst
        cases next <;> exact hst
      · exact fun _ => False.elim
      · intro _ hst
        cases next <;> exact hst
      · rw [hm]
        intro hr
        cases next with
        | handling m => exact hr
        | errorClose | release =>
          rcases hr with ⟨heq, -⟩ | ⟨-, hr⟩
          · cases heq
          · exact hr
    next => simp at hl
  next hm =>
    split at hl
    next todo hc =>
      obtain rfl := some.inj hl
      have h₁ := h.setMutex (hs.outside (by rw [hm]; decide)) none (fun _ _ ha => absurd ha (by simp))
      exact h₁.keep (h₁.mode.congr rfl) rfl id rfl
    next => simp at hl
  next hm =>
    obtain rfl := some.inj hl
    exact h.setMutex (hs.outside (by rw [hm]; decide)) none (fun _ _ ha => absurd ha (by simp))
  next => simp at hl

theorem Tracked.close (h : Tracked p s) (hs : Sound s) (hc : close s = some s') : Tracked p s' := by
  rw [Rpc.close] at hc
  split at hc
  next =>
    obtain rfl := some.inj hc
    exact h.keep (h.mode.congr rfl) rfl id rfl
  next c todo _ =>
    obtain ⟨s₁, hs₁, rfl⟩ := map_eq_some_iff.mp hc
    obtain ⟨hm, rfl⟩ := State.enter_eq_some hs₁
    have h₁ := h.setMutex (hs.outside (by rw [hm]; decide))
      (some (.closer, some (.clear c))) (by
        intro t a ha
        obtain ⟨-, ha⟩ := Prod.mk.inj (some.inj ha)
        rw [← some.inj ha]
        exact id)
    exact h₁.keep (h₁.mode.congr rfl) rfl id rfl
  next =>
    obtain rfl := some.inj hc
    have h₁ : Tracked p { s with disconnect := true, closer := .returned } :=
      h.keep (h.mode.congr rfl) rfl id rfl
    exact h₁.emit (e := .closeReturned) rfl rfl
  next => simp at hc
  next => simp at hc

theorem Tracked.step (h : Tracked p s) (hs : Sound s) {l : Label} (hc : CutRefused p s l)
    (hl : (machine p).step s l = some s') : Tracked p s' := by
  cases l with
  | feed data => exact h.feed hl
  | feedFlag =>
    change feedFlag s = some s' at hl
    rw [feedFlag] at hl
    split at hl
    · obtain rfl := some.inj hl
      exact h.keep (h.mode.congr rfl) rfl id rfl
    · simp at hl
  | worker => exact h.worker hs hc hl
  | reset ok => exact h.reset hl
  | handlerSend data =>
    have hne : Origin.handler ≠ .errorDecode := by decide
    exact h.handlerAction (a := .send .handler data) hne hl
  | handlerClosed =>
    have hne : Origin.handler ≠ .errorDecode := by decide
    exact h.handlerAction (a := .callClosed .handler) hne hl
  | handlerReturn => exact h.handlerReturn hl
  | otherSend data =>
    obtain ⟨hm, rfl⟩ := State.enter_eq_some hl
    refine h.setMutex (hs.outside (by rw [hm]; decide)) _ ?_
    intro t a ha
    obtain ⟨-, ha⟩ := Prod.mk.inj (some.inj ha)
    rw [← some.inj ha]
    have hne : Origin.other ≠ .errorDecode := by decide
    exact hne
  | otherBusy =>
    change otherBusy s = some s' at hl
    rw [otherBusy] at hl
    split at hl
    · obtain rfl := some.inj hl
      exact h.keep (h.mode.congr rfl) rfl id rfl
    · simp at hl
  | otherUnbusy =>
    change otherUnbusy s = some s' at hl
    rw [otherUnbusy] at hl
    split at hl
    · obtain rfl := some.inj hl
      exact h.keep (h.mode.congr rfl) rfl id rfl
    · simp at hl
  | act => exact h.act hs hl
  | leave => exact h.leave hs hl
  | close => exact h.close hs hl

theorem Tracked.opened (bufferIsEmpty : Bool) : Tracked p (opened p bufferIsEmpty) where
  mode := .inl ⟨[], [], {
    dispatched := {
      messages := .nil []
      contentful := nofun
      handled := rfl }
    live := rfl
    intact := rfl
    stage := .refl _
    trace := rfl }⟩
  owned := nofun
  ordered := NoneAfter.nil

end Others

end NikitaFirmware.Rpc
