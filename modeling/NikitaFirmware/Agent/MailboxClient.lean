import NikitaFirmware.Agent.MailboxSafety

/-!
# Answers read by a client that waits for them

A client writes request `k` only after it has accepted the answer to request `k - 1`, and
then reads `res` until its content is not the sentinel. Between the client's
write and the reset to the sentinel the previous answer is still there.
-/

namespace NikitaFirmware.Agent
open Foundations List

/-- The mailbox with its one client. -/
structure Session where
  mailbox : State
  /-- The client has written a request and not yet accepted an answer. -/
  waiting : Bool
  /-- The contents the client has accepted, in order. -/
  accepted : List Bytes
  /-- The agent has begun to rewrite `res` since the client wrote its request. -/
  rewritten : Bool
  /-- The last write to `res` was complete. -/
  whole : Bool
  deriving DecidableEq

namespace Session

def start (res : Option Bytes) : Session := ⟨Agent.start res, false, [], false, true⟩

/-- The client writes when it waits for nothing and reads only while it waits. -/
def allows (s : Session) : Action → Bool
  | .clientWrite _ => !s.waiting
  | .clientRead => s.waiting
  | _ => true

/-- The client takes every content of `res` but the sentinel for its answer. -/
def read (s : Session) : Session :=
  match s.mailbox.res with
  | some content =>
    if content = pendingText then s
    else { s with waiting := false, accepted := s.accepted ++ [content] }
  | none => s

/-- What the client and the history of `res` become when the mailbox steps to `m`. -/
def after (s : Session) (m : State) : Action → Session
  | .clientWrite _ => { s with mailbox := m, waiting := true, rewritten := false }
  | .clientRead => s.read
  | .openRes true => { s with mailbox := m, rewritten := true, whole := false }
  | .writeRes _ => { s with mailbox := m, whole := match m.pc with
      | .resClose _ ok => ok
      | _ => false }
  | _ => { s with mailbox := m }

def step (s : Session) (a : Action) : Option Session :=
  if s.allows a then (Agent.step s.mailbox a).map fun m => s.after m a else none

def machine : Machine Session Action := ⟨step⟩

theorem exists_of_step {s s' : Session} {a : Action} (h : machine.step s a = some s') :
    s.allows a ∧ ∃ m, Fires s.mailbox a m ∧ s' = s.after m a := by
  simp only [machine, step] at h
  split at h
  · next hallows =>
    obtain ⟨m, hm, hs⟩ := Option.map_eq_some_iff.mp h
    exact ⟨hallows, m, fires_of_step hm, hs.symm⟩
  · cases h

end Session

/-- `content` is a response `agent_run` produced for request `k`. -/
def AnswerTo (m : State) (k : Nat) (content : Bytes) : Prop :=
  ∃ request text p, m.written[k]? = some request ∧ FileRead request text ∧
    agentRun p text = some content ∧ ⟨⟨k, text⟩, some content⟩ ∈ m.runs

/-- Every content the client has accepted answers the request it was waiting for. -/
def Session.Genuine (s : Session) : Prop :=
  ∀ k content, s.accepted[k]? = some content → AnswerTo s.mailbox k content

/-- A read of the client finds no file or the sentinel, or the agent has begun to rewrite
`res` since the request was written and its last write was complete. -/
def ReadsAfterRewrite (s : Session) : Action → Prop
  | .clientRead => s.mailbox.res = none ∨ s.mailbox.res = some pendingText ∨
      (s.rewritten ∧ s.whole)
  | _ => True

/-- The agent has nothing to write but the sentinel, and no request in hand. -/
def Pc.quiet : Pc → Prop
  | .idle | .reqOpen _ | .reqExists _ => True
  | .resOpen w | .resWrite w | .resClose w _ => w.data = pendingText ∧ w.next = .finish
  | _ => False

def Pc.answers (data : Bytes) : Pc → Prop
  | .resOpen w | .resWrite w | .resClose w _ => w.data = data ∧ w.next = .finish
  | _ => False

/-- The agent has a request in hand and nothing to write but the sentinel. -/
def Pc.serves (t : Taken) : Pc → Prop
  | .reqClose req | .reqRemove req | .run req => req = t
  | .resOpen w | .resWrite w | .resClose w _ => w.data = pendingText ∧ w.next = .dispatch t
  | _ => False

/-- Once the agent has rewritten `res` and the last write was complete, `P` holds of it. -/
def Session.Holds (s : Session) (P : Bytes → Prop) : Prop :=
  s.rewritten → s.whole → ∃ content, s.mailbox.res = some content ∧ P content

/-- How far the request the client waits for has come. -/
inductive Stage (s : Session) : Prop
  | rest (hwait : s.waiting = false) (hlen : s.mailbox.written.length = s.accepted.length)
      (hreq : s.mailbox.req = none) (hpc : s.mailbox.pc.quiet)
  | posted (request : Bytes) (hwait : s.waiting = true)
      (hlen : s.mailbox.written.length = s.accepted.length + 1)
      (hwritten : s.mailbox.written[s.accepted.length]? = some request)
      (hreq : s.mailbox.req = some ⟨s.accepted.length, request⟩)
      (hpc : s.mailbox.pc.quiet ∨ s.mailbox.pc = .reqRead)
      (hres : s.Holds (· = pendingText))
  | taken (request text : Bytes) (hwait : s.waiting = true)
      (hlen : s.mailbox.written.length = s.accepted.length + 1)
      (hwritten : s.mailbox.written[s.accepted.length]? = some request)
      (hread : FileRead request text)
      (hreq : s.mailbox.pc.unremoved = none → s.mailbox.req = none)
      (hpc : s.mailbox.pc.serves ⟨s.accepted.length, text⟩)
      (hres : s.Holds (· = pendingText))
  | answering (data : Bytes) (hwait : s.waiting = true)
      (hlen : s.mailbox.written.length = s.accepted.length + 1)
      (hanswer : AnswerTo s.mailbox s.accepted.length data)
      (hreq : s.mailbox.req = none) (hpc : s.mailbox.pc.answers data)
      (hclose : ∀ w ok, s.mailbox.pc = .resClose w ok →
        s.whole = ok ∧ (ok → s.mailbox.res = some data))
      (hres : s.mailbox.pc.holdsRes = false → s.Holds (· = pendingText))
  | answered (data : Bytes) (hwait : s.waiting = true)
      (hlen : s.mailbox.written.length = s.accepted.length + 1)
      (hanswer : AnswerTo s.mailbox s.accepted.length data)
      (hreq : s.mailbox.req = none) (hpc : s.mailbox.pc.quiet)
      (hres : s.Holds fun content => content = pendingText ∨ content = data)
  | stopped (hwait : s.waiting = true) (hpc : s.mailbox.pc = .halted)
      (hres : s.Holds (· = pendingText))

def Action.byAgent : Action → Bool
  | .clientWrite _ | .clientRead => false
  | _ => true

section AgentSteps

variable {s : Session} {m : State} {a : Action}

theorem Session.after_mailbox (ha : a.byAgent) : (s.after m a).mailbox = m := by
  cases a with
  | clientWrite => cases ha
  | clientRead => cases ha
  | openRes ok => cases ok <;> rfl
  | _ => rfl

theorem Session.after_waiting (ha : a.byAgent) : (s.after m a).waiting = s.waiting := by
  cases a with
  | clientWrite => cases ha
  | clientRead => cases ha
  | openRes ok => cases ok <;> rfl
  | _ => rfl

theorem Session.after_accepted (ha : a.byAgent) : (s.after m a).accepted = s.accepted := by
  cases a with
  | clientWrite => cases ha
  | clientRead => cases ha
  | openRes ok => cases ok <;> rfl
  | _ => rfl

/-- Writing the sentinel, or nothing, keeps what a rewritten `res` can hold. -/
theorem Session.Holds.after {P : Bytes → Prop} (h : s.Holds P) (hP : P pendingText)
    (hdata : ∀ w, s.mailbox.pc = .resWrite w → w.data = pendingText) (ha : a.byAgent)
    (hf : Fires s.mailbox a m) : (s.after m a).Holds P := by
  cases hf with
  | clientWrite => cases ha
  | clientRead => cases ha
  | openRes hpc => exact fun _ hwhole => by cases hwhole
  | writeRes hpc hn =>
    intro _ hwhole
    refine ⟨pendingText, ?_, hP⟩
    simp only [Session.after, beq_iff_eq] at hwhole ⊢
    rw [hwhole, take_length, hdata _ hpc]
  | _ => exact h

end AgentSteps

section Phases

variable {s m : State} {a : Action}

variable {w : ResWrite}

theorem quiet_next (h : w.data = pendingText ∧ w.next = .finish) : w.next.pc.quiet := by
  rw [h.2]
  trivial

theorem quiet_retry (h : w.data = pendingText ∧ w.next = .finish) : w.retry.quiet := by
  unfold ResWrite.retry
  split
  · exact h
  · exact quiet_next h

theorem serves_next {t : Taken}
    (h : w.data = pendingText ∧ w.next = .dispatch t) : w.next.pc.serves t := by
  rw [h.2]
  rfl

theorem serves_retry {t : Taken}
    (h : w.data = pendingText ∧ w.next = .dispatch t) : w.retry.serves t := by
  unfold ResWrite.retry
  split
  · exact h
  · exact serves_next h

theorem answers_retry {data : Bytes} (h : w.data = data ∧ w.next = .finish) :
    w.retry = .idle ∨ ∃ w' : ResWrite, w.retry = .resOpen w' ∧ w'.data = data ∧
      w'.next = .finish := by
  unfold ResWrite.retry
  split
  · exact .inr ⟨_, rfl, h⟩
  · rw [h.2]
    exact .inl rfl

theorem quiet_step (ha : a.byAgent) (hf : Fires s a m) (h : s.pc.quiet) :
    m.req = s.req ∧ m.written = s.written ∧ m.runs = s.runs ∧
      (m.pc.quiet ∨ m.pc = .reqRead ∧ s.req.isSome) := by
  cases hf with
  | clientWrite => cases ha
  | clientRead => cases ha
  | openReq hpc hreq => exact ⟨rfl, rfl, rfl, .inr ⟨rfl, hreq⟩⟩
  | busy hpc =>
    refine ⟨rfl, rfl, rfl, .inl ?_⟩
    dsimp only
    split <;> trivial
  | openRes hpc =>
    rw [hpc] at h
    exact ⟨rfl, rfl, rfl, .inl h⟩
  | openResFail hpc =>
    rw [hpc] at h
    exact ⟨rfl, rfl, rfl, .inl (quiet_retry h)⟩
  | writeRes hpc =>
    rw [hpc] at h
    exact ⟨rfl, rfl, rfl, .inl h⟩
  | closeRes hpc =>
    rw [hpc] at h
    refine ⟨rfl, rfl, rfl, .inl ?_⟩
    dsimp only
    split
    · exact quiet_next h
    · exact quiet_retry h
  | readReq hpc | closeReq hpc | removeReq hpc | answer hpc | reboot hpc =>
    rw [hpc] at h
    exact h.elim
  | _ => exact ⟨rfl, rfl, rfl, .inl trivial⟩

theorem serves_step {t : Taken} (ha : a.byAgent) (hf : Fires s a m) (h : s.pc.serves t)
    (hreq : s.pc.unremoved = none → s.req = none) :
    m.written = s.written ∧
    ((m.runs = s.runs ∧ m.pc.serves t ∧ (m.pc.unremoved = none → m.req = none)) ∨
      ∃ p response, agentRun p t.text = response ∧ s.pc = .run t ∧ m.req = none ∧
        m.res = s.res ∧ m.runs = s.runs ++ [⟨t, response⟩] ∧
        m.pc = match response with
          | some data => .resOpen ⟨data, 0, .finish⟩
          | none => .halted) := by
  cases hf with
  | clientWrite => cases ha
  | clientRead => cases ha
  | closeReq hpc =>
    rw [hpc] at h
    exact ⟨rfl, .inl ⟨rfl, h, fun hun => by cases hun⟩⟩
  | removeReq hpc =>
    rw [hpc] at h
    exact ⟨rfl, .inl ⟨rfl, ⟨rfl, congrArg _ h⟩, fun _ => rfl⟩⟩
  | openRes hpc =>
    rw [hpc] at h hreq
    exact ⟨rfl, .inl ⟨rfl, h, hreq⟩⟩
  | openResFail hpc =>
    rw [hpc] at h hreq
    exact ⟨rfl, .inl ⟨rfl, serves_retry h, fun _ => hreq rfl⟩⟩
  | writeRes hpc =>
    rw [hpc] at h hreq
    exact ⟨rfl, .inl ⟨rfl, h, hreq⟩⟩
  | closeRes hpc =>
    rw [hpc] at h hreq
    refine ⟨rfl, .inl ⟨rfl, ?_, fun _ => hreq rfl⟩⟩
    dsimp only
    split
    · exact serves_next h
    · exact serves_retry h
  | answer hpc hrun =>
    rw [hpc] at h hreq
    cases h
    exact ⟨rfl, .inr ⟨_, _, hrun, hpc, hreq rfl, rfl, rfl, rfl⟩⟩
  | reboot hpc hrun =>
    rw [hpc] at h hreq
    cases h
    exact ⟨rfl, .inr ⟨_, _, hrun, hpc, hreq rfl, rfl, rfl, rfl⟩⟩
  | poll hpc | openReq hpc | openReqFail hpc | missing hpc | busy hpc | readReq hpc =>
    rw [hpc] at h
    exact h.elim

theorem fires_grows (hf : Fires s a m) : s.written <+: m.written ∧ s.runs <+: m.runs := by
  cases hf with
  | clientWrite => exact ⟨prefix_append _ _, prefix_refl _⟩
  | answer => exact ⟨prefix_refl _, prefix_append _ _⟩
  | reboot => exact ⟨prefix_refl _, prefix_append _ _⟩
  | _ => exact ⟨prefix_refl _, prefix_refl _⟩

theorem answerTo_of_fires {k : Nat} {content : Bytes} (hf : Fires s a m)
    (h : AnswerTo s k content) : AnswerTo m k content := by
  obtain ⟨request, text, p, hwritten, hread, hrun, hmem⟩ := h
  obtain ⟨⟨more, hmore⟩, hr⟩ := fires_grows hf
  have hk : k < s.written.length := (List.getElem?_eq_some_iff.mp hwritten).1
  refine ⟨request, text, p, ?_, hread, hrun, hr.subset hmem⟩
  rw [← hmore, getElem?_append_left hk, hwritten]

theorem reqRead_step (ha : a.byAgent) (hf : Fires s a m) (h : s.pc = .reqRead) :
    ∃ r text, s.req = some r ∧ FileRead r.content text ∧
      m = { s with pc := .reqClose ⟨r.id, text⟩ } := by
  cases hf with
  | clientWrite => cases ha
  | clientRead => cases ha
  | readReq hpc hreq hn => exact ⟨_, _, hreq, ⟨_, hn, rfl⟩, rfl⟩
  | poll hpc | openReq hpc | openReqFail hpc | missing hpc | busy hpc | closeReq hpc
  | removeReq hpc | openRes hpc | openResFail hpc | writeRes hpc | closeRes hpc | answer hpc
  | reboot hpc =>
    rw [h] at hpc
    cases hpc

theorem not_byAgent_of_halted (hf : Fires s a m) (h : s.pc = .halted) : ¬ a.byAgent := by
  cases hf with
  | clientWrite => simp [Action.byAgent]
  | clientRead => simp [Action.byAgent]
  | poll hpc | openReq hpc | openReqFail hpc | missing hpc | busy hpc | readReq hpc
  | closeReq hpc | removeReq hpc | openRes hpc | openResFail hpc | writeRes hpc | closeRes hpc
  | answer hpc | reboot hpc =>
    rw [h] at hpc
    cases hpc

theorem quiet_data {pc : Pc} (h : pc.quiet) (hpc : pc = .resWrite w) : w.data = pendingText := by
  rw [hpc] at h
  exact h.1

theorem serves_data {pc : Pc} {t : Taken} (h : pc.serves t)
    (hpc : pc = .resWrite w) : w.data = pendingText := by
  rw [hpc] at h
  exact h.1

end Phases

section Stages

variable {s : Session} {m : State} {a : Action}

theorem stage_clientWrite {content : Bytes} (hf : Fires s.mailbox (.clientWrite content) m)
    (hallows : s.allows (.clientWrite content)) (h : Stage s) :
    Stage (s.after m (.clientWrite content)) := by
  have hidle : s.waiting = false := by simpa [Session.allows] using hallows
  cases h with
  | rest hwait hlen hreq hpc =>
    cases hf with
    | clientWrite hopen =>
      refine .posted content rfl ?_ ?_ ?_ (.inl hpc) fun hrew => by cases hrew
      · simp [Session.after, hlen]
      · simp [Session.after, ← hlen]
      · simp [Session.after, hlen]
  | posted _ hwait | taken _ _ hwait | answering _ hwait | answered _ hwait | stopped hwait =>
    rw [hidle] at hwait
    cases hwait

theorem accepted_of_holds {P : Bytes → Prop} {content : Bytes} (hres : s.Holds P)
    (hok : ReadsAfterRewrite s .clientRead) (hcontent : s.mailbox.res = some content)
    (hne : content ≠ pendingText) : P content := by
  rcases hok with hnone | hpending | ⟨hrew, hwhole⟩
  · rw [hcontent] at hnone
    cases hnone
  · rw [hcontent] at hpending
    exact absurd (Option.some.inj hpending) hne
  · obtain ⟨c, hc, hP⟩ := hres hrew hwhole
    rw [hcontent] at hc
    exact Option.some.inj hc ▸ hP

theorem Session.read_cases (s : Session) : s.read = s ∨
    ∃ content, s.read = { s with waiting := false, accepted := s.accepted ++ [content] } := by
  unfold Session.read
  split
  · next content _ =>
    split
    · exact .inl rfl
    · exact .inr ⟨content, rfl⟩
  · exact .inl rfl

theorem getElem?_concat_eq_some {β : Type} {l : List β} {b c : β} {k : Nat}
    (h : (l ++ [b])[k]? = some c) (hk : ¬ k < l.length) : k = l.length ∧ b = c := by
  have hlt := (List.getElem?_eq_some_iff.mp h).1
  rw [length_append, length_singleton] at hlt
  obtain rfl : k = l.length := by omega
  exact ⟨rfl, by simpa using h⟩

theorem read_eq_self (hres : s.Holds (· = pendingText)) (hok : ReadsAfterRewrite s .clientRead) :
    s.read = s := by
  unfold Session.read
  split
  · next content hcontent =>
    split
    · rfl
    · next hne => exact absurd (accepted_of_holds hres hok hcontent hne) hne
  · rfl

theorem stage_clientRead (hf : Fires s.mailbox .clientRead m) (hallows : s.allows .clientRead)
    (hok : ReadsAfterRewrite s .clientRead) (h : Stage s) :
    Stage s.read ∧ ∀ content, s.read.accepted = s.accepted ++ [content] →
      AnswerTo s.mailbox s.accepted.length content := by
  have hopen : s.mailbox.pc.holdsRes = false := by
    cases hf with
    | clientRead hopen => exact hopen
  have hstays (heq : s.read = s) : Stage s.read ∧ ∀ content,
      s.read.accepted = s.accepted ++ [content] → AnswerTo s.mailbox s.accepted.length content := by
    rw [heq]
    exact ⟨h, fun content hc => by simp at hc⟩
  cases h with
  | rest hwait =>
    rw [show s.waiting = true from hallows] at hwait
    cases hwait
  | posted _ _ _ _ _ _ hres => exact hstays (read_eq_self hres hok)
  | taken _ _ _ _ _ _ _ _ hres => exact hstays (read_eq_self hres hok)
  | answering _ _ _ _ _ _ _ hres => exact hstays (read_eq_self (hres hopen) hok)
  | stopped _ _ hres => exact hstays (read_eq_self hres hok)
  | answered data hwait hlen hanswer hreq hpc hres =>
    cases hcontent : s.mailbox.res with
    | none => exact hstays (by simp only [Session.read, hcontent])
    | some content =>
      by_cases hne : content = pendingText
      · exact hstays (by simp only [Session.read, hcontent, hne, if_true])
      · have heq := (accepted_of_holds hres hok hcontent hne).resolve_left hne
        subst heq
        simp only [Session.read, hcontent, hne, if_false, append_cancel_left_eq,
          cons.injEq, and_true]
        refine ⟨.rest rfl ?_ hreq hpc, fun c hc => hc ▸ hanswer⟩
        rw [length_append, length_singleton]
        exact hlen

theorem stage_retry {w : ResWrite} {data : Bytes} (hwait : s.waiting = true)
    (hlen : s.mailbox.written.length = s.accepted.length + 1)
    (hanswer : AnswerTo s.mailbox s.accepted.length data) (hreq : s.mailbox.req = none)
    (hw : w.data = data ∧ w.next = .finish) (hpc : s.mailbox.pc = w.retry)
    (hres : s.Holds (· = pendingText)) : Stage s := by
  rcases answers_retry hw with hidle | ⟨w', hopen, hw'⟩
  · refine .answered data hwait hlen hanswer hreq (by rw [hpc, hidle]; trivial) fun hrew hwhole => ?_
    obtain ⟨content, hcontent, hpending⟩ := hres hrew hwhole
    exact ⟨content, hcontent, .inl hpending⟩
  · rw [hopen] at hpc
    exact .answering data hwait hlen hanswer hreq (by rw [hpc]; exact hw')
      (fun v ok hv => by simp [hpc] at hv) fun _ => hres

theorem stage_answering {data : Bytes} (ha : a.byAgent) (hf : Fires s.mailbox a m)
    (hwait : s.waiting = true) (hlen : s.mailbox.written.length = s.accepted.length + 1)
    (hanswer : AnswerTo s.mailbox s.accepted.length data) (hreq : s.mailbox.req = none)
    (hpc : s.mailbox.pc.answers data)
    (hclose : ∀ w ok, s.mailbox.pc = .resClose w ok →
      s.whole = ok ∧ (ok → s.mailbox.res = some data))
    (hres : s.mailbox.pc.holdsRes = false → s.Holds (· = pendingText)) :
    Stage (s.after m a) := by
  have hanswer' := answerTo_of_fires hf hanswer
  cases hf with
  | clientWrite => cases ha
  | clientRead => cases ha
  | openRes hopen =>
    rw [hopen] at hpc
    exact .answering data hwait hlen hanswer' hreq hpc (fun _ _ h => by cases h)
      fun h => by cases h
  | openResFail hopen =>
    rw [hopen] at hpc hres
    exact stage_retry hwait hlen hanswer' hreq hpc rfl (hres rfl)
  | writeRes hopen hn =>
    rw [hopen] at hpc
    refine .answering data hwait hlen hanswer' hreq hpc (fun v ok h => ?_) fun h => by cases h
    cases h
    refine ⟨rfl, fun hok => congrArg some ?_⟩
    rw [beq_iff_eq.mp hok, take_length, hpc.1]
  | closeRes hopen =>
    rw [hopen] at hpc
    obtain ⟨hwhole, hdata⟩ := hclose _ _ hopen
    rename_i w ok
    cases ok with
    | true =>
      refine .answered data hwait hlen hanswer' hreq ?_ fun _ _ => ⟨data, hdata rfl, .inr rfl⟩
      simp [Session.after, hpc.2, Next.pc, Pc.quiet]
    | false =>
      refine stage_retry hwait hlen hanswer' hreq hpc rfl fun _ h => ?_
      rw [show s.whole = true from h] at hwhole
      cases hwhole
  | poll h | openReq h | openReqFail h | missing h | busy h | readReq h | closeReq h
  | removeReq h | answer h | reboot h =>
    rw [h] at hpc
    exact hpc.elim

theorem stage_byAgent (ha : a.byAgent) (hf : Fires s.mailbox a m) (h : Stage s) :
    Stage (s.after m a) := by
  have hmailbox := Session.after_mailbox (s := s) (m := m) ha
  have hwaiting := Session.after_waiting (s := s) (m := m) ha
  have haccepted := Session.after_accepted (s := s) (m := m) ha
  cases h with
  | rest hwait hlen hreq hpc =>
    obtain ⟨hreq', hwritten', -, hpc' | ⟨-, hsome⟩⟩ := quiet_step ha hf hpc
    · refine .rest ?_ ?_ ?_ ?_ <;> simp only [hmailbox, hwaiting, haccepted, hreq', hwritten']
      exacts [hwait, hlen, hreq, hpc']
    · simp [hreq] at hsome
  | posted request hwait hlen hwritten hreq hpc hres =>
    rcases hpc with hquiet | hpc
    · have hres' := hres.after rfl (fun _ => quiet_data hquiet) ha hf
      obtain ⟨hreq', hwritten', -, hpc'⟩ := quiet_step ha hf hquiet
      refine .posted request ?_ ?_ ?_ ?_ ?_ hres' <;>
        simp only [hmailbox, hwaiting, haccepted, hreq', hwritten']
      exacts [hwait, hlen, hwritten, hreq, hpc'.imp id And.left]
    · have hres' := hres.after rfl (fun w hw => by simp [hpc] at hw) ha hf
      obtain ⟨r, text, hr, hread, rfl⟩ := reqRead_step ha hf hpc
      rw [hreq] at hr
      cases hr
      refine .taken request text ?_ ?_ ?_ hread ?_ ?_ hres' <;>
        simp only [hmailbox, hwaiting, haccepted]
      exacts [hwait, hlen, hwritten, fun hun => by simp [Pc.unremoved] at hun, rfl]
  | taken request text hwait hlen hwritten hread hreq hpc hres =>
    have hres' := hres.after rfl (fun _ => serves_data hpc) ha hf
    obtain ⟨hwritten', ⟨-, hpc', hreq'⟩ | ⟨p, response, hrun, hpc, hreq', -, hruns', hpc'⟩⟩ :=
      serves_step ha hf hpc hreq
    · refine .taken request text ?_ ?_ ?_ hread ?_ ?_ hres' <;>
        simp only [hmailbox, hwaiting, haccepted, hwritten']
      exacts [hwait, hlen, hwritten, hreq', hpc']
    · cases response with
      | none =>
        refine .stopped ?_ ?_ hres' <;> simp only [hmailbox, hwaiting]
        exacts [hwait, hpc']
      | some data =>
        have hanswer : AnswerTo m s.accepted.length data :=
          ⟨_, _, p, hwritten' ▸ hwritten, hread, hrun, by simp [hruns']⟩
        refine .answering data ?_ ?_ ?_ ?_ ?_ ?_ fun _ => hres' <;>
          simp only [hmailbox, hwaiting, haccepted, hwritten', hreq', hpc']
        exacts [hwait, hlen, hanswer, ⟨rfl, rfl⟩, fun w ok hw => by cases hw]
  | answering data hwait hlen hanswer hreq hpc hclose hres =>
    exact stage_answering ha hf hwait hlen hanswer hreq hpc hclose hres
  | answered data hwait hlen hanswer hreq hpc hres =>
    have hanswer' := answerTo_of_fires hf hanswer
    have hres' := hres.after (.inl rfl) (fun _ => quiet_data hpc) ha hf
    obtain ⟨hreq', hwritten', -, hpc' | ⟨-, hsome⟩⟩ := quiet_step ha hf hpc
    · refine .answered data ?_ ?_ ?_ ?_ ?_ hres' <;>
        simp only [hmailbox, hwaiting, haccepted, hreq', hwritten']
      exacts [hwait, hlen, hanswer', hreq, hpc']
    · simp [hreq] at hsome
  | stopped hwait hpc hres => exact absurd ha (not_byAgent_of_halted hf hpc)

theorem stage_step (s : Session) (a : Action) (s' : Session) (h : Stage s ∧ s.Genuine)
    (hok : ReadsAfterRewrite s a) (hs : Session.machine.step s a = some s') :
    Stage s' ∧ s'.Genuine := by
  obtain ⟨hstage, hgenuine⟩ := h
  obtain ⟨hallows, m, hf, rfl⟩ := Session.exists_of_step hs
  have hkeep : ∀ k content, s.accepted[k]? = some content → AnswerTo m k content :=
    fun k content hk => answerTo_of_fires hf (hgenuine k content hk)
  cases a with
  | clientWrite content => exact ⟨stage_clientWrite hf hallows hstage, hkeep⟩
  | clientRead =>
    obtain ⟨hstage', hanswer⟩ := stage_clientRead hf hallows hok hstage
    refine ⟨hstage', fun k content hk => ?_⟩
    rcases s.read_cases with heq | ⟨c, heq⟩
    · rw [Session.after, heq] at hk ⊢
      exact hgenuine k content hk
    · rw [Session.after, heq] at hk ⊢
      by_cases hlt : k < s.accepted.length
      · exact hgenuine k content ((getElem?_append_left hlt).symm.trans hk)
      · obtain ⟨rfl, rfl⟩ := getElem?_concat_eq_some hk hlt
        exact hanswer c (by rw [heq])
  | _ =>
    refine ⟨stage_byAgent rfl hf hstage, ?_⟩
    unfold Session.Genuine
    rw [Session.after_accepted rfl, Session.after_mailbox rfl]
    exact hkeep

end Stages

/-- In every run in which each read of the client finds nothing to accept, or a `res` rewritten in
whole since the request, every accepted content is the response to its request. -/
theorem accepted_answers_genuine (res : Option Bytes) (as : List Action) (s : Session)
    (h : Session.machine.run (Session.start res) as = some s)
    (hreads : Session.machine.Meets ReadsAfterRewrite (Session.start res) as) : s.Genuine := by
  have h₀ : Stage (Session.start res) ∧ (Session.start res).Genuine :=
    ⟨.rest rfl rfl rfl ⟨rfl, rfl⟩, fun k content hk => by simp [Session.start] at hk⟩
  exact (Session.machine.run_invariant_of_meets stage_step h₀ hreads h).2

instance (s : Session) : ∀ a, Decidable (ReadsAfterRewrite s a)
  | .clientRead => inferInstanceAs (Decidable (s.mailbox.res = none ∨
      s.mailbox.res = some pendingText ∨ (s.rewritten ∧ s.whole)))
  | .clientWrite _ | .poll | .openReq _ | .existsReq _ | .readReq _ | .closeReq | .removeReq
  | .openRes _ | .writeRes _ | .closeRes | .runReq _ => isTrue trivial

/-- A request and its answer, with a read that comes too early. -/
def answeredRun : List Action :=
  [.openRes true, .writeRes 8, .closeRes, .clientWrite (ascii "op: ping\n"), .clientRead, .poll,
    .openReq true, .readReq 9, .closeReq, .removeReq, .openRes true, .writeRes 8, .closeRes,
    .runReq ⟨none, [], 0, 0, false, false, 0⟩, .openRes true, .writeRes 17, .closeRes, .clientRead]

theorem answeredRun_genuine : ∃ s, Session.machine.run (Session.start none) answeredRun = some s ∧
    s.accepted = [ascii "ok: 1\ndata: pong\n"] ∧ s.Genuine := by
  refine ⟨(Session.machine.run (Session.start none) answeredRun).get (by decide), by decide,
    by decide, ?_⟩
  exact accepted_answers_genuine none answeredRun _ (by decide) (by decide)

/-- After the answer to `ping` the client asks for the vibration motor and reads before the
agent has seen the new request. -/
def staleRun : List Action :=
  answeredRun ++ [.clientWrite (ascii "op: sys.vibro\n"), .clientRead, .poll]

/-- The client takes the answer to its first request for the answer to its second one. -/
theorem accepted_answers_not_always_genuine : ¬ ∀ (res : Option Bytes) (as : List Action)
    (s : Session), Session.machine.run (Session.start res) as = some s → s.Genuine := by
  intro hall
  have hgenuine := hall none staleRun
    ((Session.machine.run (Session.start none) staleRun).get (by decide)) (by decide)
  obtain ⟨request, text, p, -, -, -, hmem⟩ :=
    hgenuine 1 (ascii "ok: 1\ndata: pong\n") (by decide)
  have hone : ∀ r ∈ ((Session.machine.run (Session.start none) staleRun).get
      (by decide)).mailbox.runs, r.req.id = 0 := by decide
  exact absurd (hone _ hmem) Nat.one_ne_zero

end NikitaFirmware.Agent
