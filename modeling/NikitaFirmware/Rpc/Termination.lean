import NikitaFirmware.Rpc.Sections

/-!
# The worker ends after the close

Once `rpc_session_close` has returned, the disconnect flag reaches the worker wherever it
stands. If nothing is fed any more and every section and handler comes to its end, the worker
works off the bytes it still has and ends.
-/

namespace NikitaFirmware.Rpc
open Foundations Option

variable {M : Type} {p : Protocol M} {s s' : State M}

/-- The steps of the worker and those it may have to wait for: the end of a section and of
another session's handler. -/
def Label.Progress : Label → Prop
  | .worker | .reset _ | .handlerReturn | .otherUnbusy | .act | .leave => True
  | _ => False

/-- A decoder that the close has not stopped yet. -/
def Pc.decodeRank : Decode M → Nat
  | .ret _ | .fail => 60
  | .read .. => 20

theorem Pc.decodeRank_le (d : Decode M) : Pc.decodeRank d ≤ 60 := by
  cases d with
  | ret | fail => exact le_rfl
  | read => exact (show 20 ≤ 60 by decide)

/-- How far the worker is from its next byte, or from its end once it has taken the disconnect.
A section is entered on the way, so places are four apart. -/
def Pc.rank (terminate : Bool) (stream : Bytes) : Pc M → Nat
  | .decode d => if terminate then 60 + d.refusals else decodeRank d
  | .failed | .busy _ => 56
  | .errorSend | .inSection (.handling _) => 52
  | .inSection .errorClose | .handling _ => 48
  | .errorClose | .notImplemented _ | .unbusy => 44
  | .inSection .release => 40
  | .release => 24
  | .wait .. => 12
  | .disconnect .. => 8
  | .receive .. => if stream = [] then 16 else 4
  | .ended => 0

/-- What is left to do in the open section. -/
def sectionRank : Option (Thread × Option Action) → Nat
  | none => 0
  | some (_, none) => 1
  | some (_, some _) => 2

def busyRank : Option Thread → Nat
  | some .other => 1
  | _ => 0

/-- The worker's way to its end: the disconnect it has not taken yet, then the bytes it has. -/
def workLeft (s : State M) : Nat × Nat :=
  (if s.terminate then 0 else 1,
    64 * s.stream.length + s.pc.rank s.terminate s.stream + sectionRank s.callbacksMutex +
      busyRank s.busyMutex)

def LessWork : Nat × Nat → Nat × Nat → Prop := Prod.Lex (· < ·) (· < ·)

theorem lessWork_wf : WellFounded LessWork := (Prod.lex Nat.lt_wfRel Nat.lt_wfRel).wf

theorem lessWork_of_lt (ht : s'.terminate = s.terminate)
    (hlt : 64 * s'.stream.length + s'.pc.rank s'.terminate s'.stream +
        sectionRank s'.callbacksMutex + busyRank s'.busyMutex <
      64 * s.stream.length + s.pc.rank s.terminate s.stream + sectionRank s.callbacksMutex +
        busyRank s.busyMutex) : LessWork (workLeft s') (workLeft s) := by
  rw [workLeft, workLeft, ht]
  rw [ht] at hlt
  exact .right _ hlt

structure Closed (s : State M) : Prop where
  sound : Sound s
  returned : s.closer = .returned

/-- A step that does its part of the work and leaves the close alone. -/
def Works (s s' : State M) : Prop := LessWork (workLeft s') (workLeft s) ∧ s'.closer = s.closer

section Steps

theorem Works.of_pc {pc : Pc M}
    (hlt : pc.rank s.terminate s.stream < s.pc.rank s.terminate s.stream) :
    Works s { s with pc := pc } := by
  refine ⟨lessWork_of_lt rfl ?_, rfl⟩
  dsimp only
  omega

theorem Works.of_enter {a : Action} {next : After M} (hm : s.callbacksMutex = none)
    (hlt : (Pc.inSection next).rank s.terminate s.stream + 2 < s.pc.rank s.terminate s.stream) :
    Works s { s with callbacksMutex := some (.worker, some a), pc := .inSection next } := by
  refine ⟨lessWork_of_lt rfl ?_, rfl⟩
  rw [hm]
  dsimp only [sectionRank]
  omega

theorem Works.emit (h : Works s s') (e : Event M) : Works s (s'.emit e) := h

theorem Works.emitIf (h : Works s s') (c : Callback) (e : Event M) : Works s (s'.emitIf c e) := by
  rw [State.emitIf]
  split
  · exact h
  · exact h

theorem Works.notifyEmpty (h : Works s s') : Works s (notifyEmpty s') := by
  rw [Rpc.notifyEmpty]
  split
  · exact h.emitIf _ _
  · exact h

theorem dispatch_works {m : M} (hpc : s.pc = .decode (.ret m)) : Works s (dispatch p m s) := by
  have hrank : s.pc.rank s.terminate s.stream = 60 := by
    rw [hpc, Pc.rank]
    split <;> rfl
  rw [dispatch]
  split
  · exact .of_pc (hrank ▸ (show 56 < 60 by decide))
  · exact .of_pc (hrank ▸ (show 56 < 60 by decide))
  · refine .of_pc ?_
    rw [hrank]
    split
    · exact (show 24 < 60 by decide)
    · exact (show 44 < 60 by decide)
  · exact .of_pc (hrank ▸ (show 24 < 60 by decide))

theorem receive_works (hs : Sound s) {q : Request M} {received : Bytes}
    (hpc : s.pc = .receive q received) : Works s (receive q received s) := by
  have hroom : received.length ≤ q.n := by
    have hr := hs.room
    rwa [hpc] at hr
  have ht : s.terminate = false := by
    by_contra ht
    have hread := hs.reading ((Bool.not_eq_false _).mp ht)
    rw [hpc] at hread
    cases hread
  rw [receive]
  have hmain : Works s { s with
      stream := s.stream.drop (q.n + 1 - received.length)
      pc := if (gather q received s).length = q.n + 1 then .decode (q.next (gather q received s))
        else .wait q (gather q received s) } := by
    refine ⟨lessWork_of_lt rfl ?_, rfl⟩
    dsimp only
    rw [hpc, ht, List.length_drop]
    by_cases hempty : s.stream = []
    · -- nothing is added, so the request stays open
      have hlen : (gather q received s).length ≠ q.n + 1 := by
        rw [gather, hempty]
        split
        · simp
        · simp
          omega
      rw [if_neg hlen, hempty]
      simp [Pc.rank]
    · have hpos : 0 < s.stream.length := List.length_pos_of_ne_nil hempty
      have hrank : Pc.rank false (s.stream.drop (q.n + 1 - received.length))
          (if (gather q received s).length = q.n + 1 then .decode (q.next (gather q received s))
            else .wait q (gather q received s)) ≤ 60 := by
        split
        · exact Pc.decodeRank_le _
        · exact (show 12 ≤ 60 by decide)
      have h4 : (Pc.receive q received).rank false s.stream = 4 := if_neg hempty
      rw [h4]
      omega
  exact hmain.notifyEmpty

theorem testEmpty_works (hs : Sound s) {q : Request M} {received : Bytes}
    (hpc : s.pc = .disconnect q received) : Works s (testEmpty q received s) := by
  have ht : s.terminate = false := by
    by_contra ht
    have hread := hs.reading ((Bool.not_eq_false _).mp ht)
    rw [hpc] at hread
    cases hread
  rw [testEmpty]
  split
  next =>
    refine ⟨?_, rfl⟩
    rw [workLeft, workLeft, ht]
    exact .left _ _ (show 0 < 1 by decide)
  next hempty =>
    refine ⟨lessWork_of_lt rfl ?_, rfl⟩
    dsimp only
    rw [hpc]
    simp [Pc.rank, hempty]

theorem worker_works (hs : Closed s) (hw : worker p s = some s') : Works s s' := by
  rw [Rpc.worker] at hw
  cases hpc : s.pc with
  | decode d =>
    cases d with
    | ret m =>
      simp only [hpc, some.injEq] at hw
      subst hw
      exact dispatch_works hpc
    | fail =>
      simp only [hpc, some.injEq] at hw
      subst hw
      refine .of_pc ?_
      rw [hpc]
      show 56 < if s.terminate then 60 + 0 else 60
      split
      · exact (show 56 < 60 by decide)
      · exact (show 56 < 60 by decide)
    | read n next eof refused =>
      simp only [hpc] at hw
      split at hw
      next ht =>
        obtain rfl := some.inj hw
        refine .of_pc ?_
        rw [hpc, ht]
        show 60 + refused.refusals < 60 + (refused.refusals + 1)
        omega
      next ht =>
        obtain rfl := some.inj hw
        refine .of_pc ?_
        rw [hpc, Bool.eq_false_iff.mpr ht]
        show (if s.stream = [] then 16 else 4) < 20
        split
        · exact (show 16 < 20 by decide)
        · exact (show 4 < 20 by decide)
  | receive q received =>
    simp only [hpc, some.injEq] at hw
    subst hw
    exact receive_works hs.sound hpc
  | wait q received =>
    simp only [hpc] at hw
    have ht : s.terminate = false := by
      by_contra ht
      have hread := hs.sound.reading ((Bool.not_eq_false _).mp ht)
      rw [hpc] at hread
      cases hread
    -- the flag of the close is up, so this is not the wait for new bytes
    have hdis : s.disconnect = true := by
      refine (hs.sound.flagged hs.returned ht).resolve_right ?_
      rw [hpc]
      exact Bool.false_ne_true
    rw [wake, if_pos (by rw [hdis, Bool.or_true]), if_pos hdis] at hw
    obtain rfl := some.inj hw
    refine .of_pc ?_
    rw [hpc]
    exact (show 8 < 12 by decide)
  | disconnect q received =>
    simp only [hpc, some.injEq] at hw
    subst hw
    exact testEmpty_works hs.sound hpc
  | busy m =>
    simp only [hpc] at hw
    split at hw
    next hb =>
      obtain rfl := some.inj hw
      have hmain : Works s { s with busyMutex := some .worker, pc := .handling m } := by
        refine ⟨lessWork_of_lt rfl ?_, rfl⟩
        rw [hb, hpc]
        simp [Pc.rank, busyRank]
      exact hmain.emit _
    next => simp at hw
  | unbusy =>
    simp only [hpc, some.injEq] at hw
    subst hw
    refine ⟨lessWork_of_lt rfl ?_, rfl⟩
    rw [hpc]
    simp [Pc.rank, busyRank]
    omega
  | notImplemented m =>
    simp only [hpc] at hw
    obtain ⟨s₁, hs₁, rfl⟩ := map_eq_some_iff.mp hw
    obtain ⟨hm, rfl⟩ := State.enter_eq_some hs₁
    exact .of_enter hm (by rw [hpc]; exact (show 40 + 2 < 44 by decide))
  | errorSend =>
    simp only [hpc] at hw
    obtain ⟨s₁, hs₁, rfl⟩ := map_eq_some_iff.mp hw
    obtain ⟨hm, rfl⟩ := State.enter_eq_some hs₁
    exact Works.emit (.of_enter hm (by rw [hpc]; exact (show 48 + 2 < 52 by decide))) _
  | errorClose =>
    simp only [hpc] at hw
    obtain ⟨s₁, hs₁, rfl⟩ := map_eq_some_iff.mp hw
    obtain ⟨hm, rfl⟩ := State.enter_eq_some hs₁
    exact .of_enter hm (by rw [hpc]; exact (show 40 + 2 < 44 by decide))
  | release =>
    simp only [hpc, some.injEq] at hw
    subst hw
    refine .of_pc ?_
    rw [hpc]
    cases s.terminate
    · exact (show 20 < 24 by decide)
    · exact (show 0 < 24 by decide)
  | handling m | failed | inSection next | ended =>
    simp [hpc] at hw

theorem reset_works {ok : Bool} (hr : reset ok s = some s') : Works s s' := by
  rw [reset] at hr
  have hlen : (if ok then [] else s.stream).length ≤ s.stream.length := by
    split
    · exact Nat.zero_le _
    · exact le_rfl
  cases hpc : s.pc with
  | failed =>
    simp only [hpc] at hr
    split at hr
    · obtain rfl := some.inj hr
      refine ⟨lessWork_of_lt rfl ?_, rfl⟩
      rw [hpc]
      dsimp only [Pc.rank]
      omega
    · obtain rfl := some.inj hr
      refine ⟨lessWork_of_lt rfl ?_, rfl⟩
      rw [hpc]
      dsimp only [Pc.rank]
      omega
  | _ => simp [hpc] at hr

theorem handlerReturn_works (hr : handlerReturn s = some s') : Works s s' := by
  rw [handlerReturn] at hr
  cases hpc : s.pc with
  | handling m =>
    simp only [hpc, some.injEq] at hr
    subst hr
    exact .of_pc (by rw [hpc]; exact (show 44 < 48 by decide))
  | _ => simp [hpc] at hr

theorem otherUnbusy_works (hr : otherUnbusy s = some s') : Works s s' := by
  rw [otherUnbusy] at hr
  split at hr
  next hb =>
    obtain rfl := some.inj hr
    refine ⟨lessWork_of_lt rfl ?_, rfl⟩
    rw [hb]
    simp [busyRank]
  next => simp at hr

theorem act_works (hr : act s = some s') : Works s s' := by
  rw [act] at hr
  split at hr
  next t a hm =>
    obtain rfl := some.inj hr
    have hmain : Works s { s with callbacksMutex := some (t, none) } := by
      refine ⟨lessWork_of_lt rfl ?_, rfl⟩
      rw [hm]
      simp [sectionRank]
    cases a with
    | clear c => exact hmain
    | send o data =>
      show Works s { s.emitIf _ _ with callbacksMutex := some (t, none) }
      rw [State.emitIf]
      split <;> exact hmain
    | callClosed o =>
      show Works s { s.emitIf _ _ with callbacksMutex := some (t, none) }
      rw [State.emitIf]
      split <;> exact hmain
  next => simp at hr

theorem leave_works (hs : Closed s) (hr : leave s = some s') : Works s s' := by
  rw [leave] at hr
  split at hr
  next hm =>
    split at hr
    next next hpc =>
      obtain rfl := some.inj hr
      refine ⟨lessWork_of_lt rfl ?_, rfl⟩
      rw [hm, hpc]
      cases next <;> simp [After.pc, Pc.rank, sectionRank]
    next => simp at hr
  next hm =>
    split at hr
    next todo hc =>
      rw [hs.returned] at hc
      cases hc
    next => simp at hr
  next hm =>
    obtain rfl := some.inj hr
    refine ⟨lessWork_of_lt rfl ?_, rfl⟩
    rw [hm]
    simp [sectionRank]
  next => simp at hr

theorem Closed.step (hs : Closed s) {l : Label} (hl : l.Progress)
    (h : (machine p).step s l = some s') : Closed s' ∧ LessWork (workLeft s') (workLeft s) := by
  have hw : Works s s' := by
    cases l with
    | worker => exact worker_works hs h
    | reset ok => exact reset_works h
    | handlerReturn => exact handlerReturn_works h
    | otherUnbusy => exact otherUnbusy_works h
    | act => exact act_works h
    | leave => exact leave_works hs h
    | _ => exact absurd hl id
  exact ⟨⟨hs.sound.step h, hw.2.trans hs.returned⟩, hw.1⟩

theorem Closed.section_enabled (hs : Closed s) (hpc : s.pc.holdsSection = false)
    {x : Thread × Option Action} (hm : s.callbacksMutex = some x) :
    ∃ l s', l.Progress ∧ (machine p).step s l = some s' := by
  obtain ⟨t, a⟩ := x
  cases a with
  | some a => exact ⟨.act, _, trivial, by show act s = _; rw [act, hm]⟩
  | none =>
    cases t with
    | other => exact ⟨.leave, _, trivial, by show leave s = _; rw [leave, hm]⟩
    | worker =>
      have hsec := hs.sound.workerSection.mp (by rw [hm]; rfl)
      rw [hpc] at hsec
      cases hsec
    | closer =>
      obtain ⟨todo, hc⟩ := hs.sound.closerSection.mp (by rw [hm]; rfl)
      rw [hs.returned] at hc
      cases hc

theorem Closed.enter_enabled (hs : Closed s) (hpc : s.pc.holdsSection = false) {a : Action}
    {f : State M → State M} (hw : worker p s = (s.enter .worker a).map f) :
    ∃ l s', l.Progress ∧ (machine p).step s l = some s' := by
  cases hm : s.callbacksMutex with
  | some x => exact hs.section_enabled hpc hm
  | none =>
    rw [State.enter, if_pos hm] at hw
    exact ⟨.worker, _, trivial, hw⟩

/-- No deadlock: a session asked to close can always take a step towards its end. -/
theorem Closed.enabled (hs : Closed s) :
    s.pc = .ended ∨ ∃ l s', l.Progress ∧ (machine p).step s l = some s' := by
  have hworker : ∀ s', worker p s = some s' →
      ∃ l s', l.Progress ∧ (machine p).step s l = some s' := fun s' h => ⟨.worker, s', trivial, h⟩
  cases hpc : s.pc with
  | ended => exact .inl rfl
  | decode d =>
    right
    cases d with
    | ret m => exact hworker _ (by rw [worker, hpc])
    | fail => exact hworker _ (by rw [worker, hpc])
    | read n next eof refused =>
      cases ht : s.terminate with
      | true => exact hworker _ (by rw [worker, hpc]; exact if_pos ht)
      | false => exact hworker _ (by rw [worker, hpc]; exact if_neg (by rw [ht]; decide))
  | receive q received => exact .inr (hworker _ (by rw [worker, hpc]))
  | wait q received =>
    right
    have ht : s.terminate = false := by
      by_contra ht
      have hread := hs.sound.reading ((Bool.not_eq_false _).mp ht)
      rw [hpc] at hread
      cases hread
    have hdis : s.disconnect = true := by
      refine (hs.sound.flagged hs.returned ht).resolve_right ?_
      rw [hpc]
      exact Bool.false_ne_true
    have hw : worker p s = wake q received s := by
      rw [worker, hpc]
    rw [wake, if_pos (by rw [hdis, Bool.or_true])] at hw
    exact hworker _ hw
  | disconnect q received => exact .inr (hworker _ (by rw [worker, hpc]))
  | busy m =>
    right
    cases hb : s.busyMutex with
    | none => exact hworker _ (by rw [worker, hpc]; exact if_pos hb)
    | some t =>
      cases t with
      | other => exact ⟨.otherUnbusy, _, trivial, if_pos hb⟩
      | worker =>
        have hbusy := hs.sound.busy.mp hb
        rw [hpc] at hbusy
        cases hbusy
      | closer => exact absurd hb hs.sound.bystander
  | handling m =>
    right
    have hr : handlerReturn s = some { s with pc := .unbusy } := by
      rw [handlerReturn, hpc]
    exact ⟨.handlerReturn, _, trivial, hr⟩
  | unbusy => exact .inr (hworker _ (by rw [worker, hpc]))
  | notImplemented m =>
    exact .inr (hs.enter_enabled (by rw [hpc]; rfl) (by rw [worker, hpc]))
  | failed =>
    right
    have hr : reset true s = if s.terminate then some { s with stream := [], pc := .release }
        else some { s with stream := [], decodeError := true, pc := .errorSend } := by
      rw [reset, hpc]
      rfl
    cases ht : s.terminate with
    | true =>
      rw [if_pos ht] at hr
      exact ⟨.reset true, _, trivial, hr⟩
    | false =>
      rw [if_neg (by rw [ht]; decide)] at hr
      exact ⟨.reset true, _, trivial, hr⟩
  | errorSend => exact .inr (hs.enter_enabled (by rw [hpc]; rfl) (by rw [worker, hpc]))
  | errorClose => exact .inr (hs.enter_enabled (by rw [hpc]; rfl) (by rw [worker, hpc]))
  | inSection next =>
    right
    obtain ⟨x, hx, hfst⟩ := map_eq_some_iff.mp (hs.sound.workerSection.mpr (by rw [hpc]; rfl))
    obtain ⟨t, a⟩ := x
    obtain rfl : t = .worker := hfst
    cases a with
    | some a => exact ⟨.act, _, trivial, by show act s = _; rw [act, hx]⟩
    | none =>
      have hl : leave s = some { s with callbacksMutex := none, pc := next.pc } := by
        rw [leave, hx]
        simp only [hpc]
      exact ⟨.leave, _, trivial, hl⟩
  | release => exact .inr (hworker _ (by rw [worker, hpc]))

theorem Closed.ends (hs : Closed s) :
    (machine p).Inevitable Label.Progress (fun s => s.pc = .ended) s :=
  Machine.inevitable_of_measure lessWork_wf workLeft (I := Closed)
    (fun _ h => h.enabled) (fun _ _ _ h hl hst => h.step hl hst) hs

end Steps

end NikitaFirmware.Rpc
