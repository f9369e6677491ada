import NikitaFirmware.EventLoop.WakeUp
import NikitaFirmware.Foundations.BackInsert

/-!
# The flag of the timer requests

While requests are queued, the timer flag is set or will be restored, unless the loop was stopped
with it: the stop consumes all flags.
-/

namespace NikitaFirmware.EventLoop
open Foundations Option

variable {s s' : State} {a : Addr} {object : Object} {event : Event} {rest : Flags}

/-- The loop is going to take the requests that are queued, if it is running. -/
def Flagged (s : State) : Prop :=
  s.timerQueue ≠ [] → s.pc = .idle ∨ s.notification .timer = true ∨ s.pc.carried .timer = true ∨
    s.pc.drainsTimers = true

/-- The queue stays as it is, and flagged. -/
structure Quiet (s s' : State) : Prop where
  timerQueue : s'.timerQueue = s.timerQueue
  flagged : Flagged s → Flagged s'

theorem Quiet.of_posts (hq : s'.timerQueue = s.timerQueue) (hp : Posts s s') : Quiet s s' where
  timerQueue := hq
  flagged := by
    intro h hne
    rw [hp.pc]
    rw [hq] at hne
    exact (h hne).imp_right (Or.imp_left (hp.notification .timer))

theorem Quiet.of_move (hq : s'.timerQueue = s.timerQueue) (hp : Posts s s') {pc : Pc}
    (hcarried : pc.carried = s.pc.carried) (hidle : s.pc ≠ .idle)
    (hdrains : s.pc.drainsTimers = false) : Quiet s { s' with pc := pc } where
  timerQueue := hq
  flagged := by
    intro h hne
    obtain hpc | hn | hc | hd := h (hq ▸ hne)
    · exact absurd hpc hidle
    · exact .inr (.inl (hp.notification .timer hn))
    · exact .inr (.inr (.inl (hcarried ▸ hc)))
    · cases hdrains.symm.trans hd

theorem posts_self (s : State) : Posts s s := Posts.of_eq rfl rfl rfl id rfl rfl

theorem itemEnqueue_timerQueue (s : State) (a : Addr) :
    (itemEnqueue s a).timerQueue = s.timerQueue := by
  unfold itemEnqueue
  split
  · split <;> rfl
  · rfl

theorem itemFree_timerQueue (s : State) (a : Addr) : (itemFree s a).timerQueue = s.timerQueue := by
  unfold itemFree
  split <;> rfl

theorem itemFreeLater_timerQueue (s : State) (a : Addr) :
    (itemFreeLater s a).timerQueue = s.timerQueue := by
  unfold itemFreeLater
  split <;> rfl

theorem objectSubscribe_quiet {level : Bool}
    (h : objectSubscribe s object event a level = some s') : Quiet s s' := by
  refine .of_posts ?_ (posts_objectSubscribe h)
  obtain ⟨d, -, -, -, -, rfl⟩ := objectSubscribe_cases h
  split
  · exact itemEnqueue_timerQueue _ _
  · rfl

theorem unsubscribe_timerQueue (h : unsubscribe s object = some s') :
    s'.timerQueue = s.timerQueue := by
  obtain ⟨a, -, ⟨-, rfl⟩ | ⟨it, d, -, -, -, -, rfl⟩⟩ := unsubscribe_cases h
  · rfl
  · split
    · exact itemFreeLater_timerQueue _ _
    · exact itemFree_timerQueue _ _

theorem call_quiet {c : Call} (hc : ∀ timer request, c ≠ .timerEnqueueRequest timer request)
    (h : call s c = some s') : Quiet s s' := by
  cases c with
  | objectSubscribe object event a level => exact objectSubscribe_quiet h
  | unsubscribe object => exact .of_posts (unsubscribe_timerQueue h) (posts_unsubscribe h)
  | pendCallback callback => exact .of_posts (some.inj h ▸ rfl) (posts_call h)
  | timerEnqueueRequest timer request => exact absurd rfl (hc timer request)
  | subscribeThreadFlags =>
    refine .of_posts ?_ (posts_call h)
    rw [call, subscribeThreadFlags] at h
    split at h
    · cases h
    · exact some.inj h ▸ rfl
  | unsubscribeThreadFlags =>
    refine .of_posts ?_ (posts_call h)
    rw [call, unsubscribeThreadFlags] at h
    split at h
    · exact some.inj h ▸ rfl
    · cases h

theorem outside_quiet {o : Outside} (h : outside s o = some s') : Quiet s s' := by
  refine .of_posts ?_ (posts_outside h)
  cases o with
  | linkNotify object event =>
    change linkNotify s object event = some s' at h
    unfold linkNotify at h
    split at h
    · split at h
      · exact some.inj h ▸ itemEnqueue_timerQueue _ _
      all_goals exact some.inj h ▸ rfl
    · cases h
  | threadFlagCallback => exact some.inj h ▸ rfl
  | stop => exact some.inj h ▸ rfl
  | otherLoop object direction subscribe =>
    obtain ⟨-, rfl⟩ := otherLoop_cases h
    rfl

theorem finish_quiet {status : ProcessStatus} (hpc : s.pc = .finish a rest status) :
    Quiet s (finish s a rest status) := by
  have hidle : s.pc ≠ .idle := by
    rw [hpc]
    exact Pc.noConfusion
  have hdrains : s.pc.drainsTimers = false := by rw [hpc]; rfl
  cases status with
  | complete => exact .of_move rfl (posts_self s) (by rw [hpc]; rfl) hidle hdrains
  | freeLater =>
    exact .of_move (itemFree_timerQueue s a) (posts_itemFree s a) (by rw [hpc]; rfl) hidle hdrains
  | incomplete =>
    refine ⟨itemEnqueue_timerQueue s a, fun h hne => ?_⟩
    have hn : (itemEnqueue s a).notification = s.notification := by
      unfold itemEnqueue
      split
      · split <;> rfl
      · rfl
    obtain hi | hflag | hc | hd := h ((itemEnqueue_timerQueue s a) ▸ hne)
    · exact absurd hi hidle
    · exact .inr (.inl ((congrFun hn .timer).trans hflag))
    · rw [hpc] at hc
      exact .inr (.inr (.inl hc))
    · cases hdrains.symm.trans hd

/-- What the loop does by itself while it takes no request. -/
theorem loopStep_quiet (hdrains : s.pc.drainsTimers = false) (hs : loopStep s = some s') :
    Quiet s s' := by
  have hmove : ∀ {s₁ : State} {pc : Pc}, s₁.timerQueue = s.timerQueue → Posts s s₁ →
      pc.carried = s.pc.carried → s.pc ≠ .idle → Quiet s { s₁ with pc := pc } :=
    fun hq hp hc hi => .of_move hq hp hc hi hdrains
  unfold loopStep at hs
  split at hs
  case h_1 rest hpc =>
    obtain rfl := some.inj hs
    unfold getWaitingItem
    split
    · exact hmove rfl (posts_self s) (by rw [hpc]; rfl) (by simp [hpc])
    · next a waiting hcons =>
      exact @hmove { s with waitingList := waiting } _ rfl
        (Posts.of_eq rfl rfl rfl (fun _ => hcons ▸ List.cons_ne_nil a waiting) rfl rfl)
        (by rw [hpc]; rfl) (by simp [hpc])
  case h_2 a rest hpc =>
    rcases deref_cases hs with ⟨it, -, hk⟩ | ⟨-, rfl⟩
    · split at hk
      · obtain ⟨u, hu, rfl⟩ := map_eq_some_iff.mp hk
        exact hmove (unsubscribe_timerQueue hu) (posts_unsubscribe hu) (by rw [hpc]; rfl)
          (by simp [hpc])
      · obtain rfl := some.inj hk
        exact hmove rfl (posts_self s) (by rw [hpc]; rfl) (by simp [hpc])
    · exact .of_posts rfl (posts_faulted s)
  case h_3 a rest hpc =>
    rcases deref_cases hs with ⟨it, -, hk⟩ | ⟨-, rfl⟩
    · obtain rfl := some.inj hk
      refine @hmove { s with currentItem := some a } _ rfl
        (Posts.of_eq rfl rfl rfl id rfl rfl) ?_ (by simp [hpc])
      rw [hpc]
      split <;> rfl
    · exact .of_posts rfl (posts_faulted s)
  case h_4 a rest status hpc =>
    rcases deref_cases hs with ⟨it, -, hk⟩ | ⟨-, rfl⟩
    · obtain rfl := some.inj hk
      exact @hmove { s with currentItem := none } _ rfl
        (Posts.of_eq rfl rfl rfl id rfl rfl) (by rw [hpc]; rfl) (by simp [hpc])
    · exact .of_posts rfl (posts_faulted s)
  case h_5 a rest status hpc => exact some.inj hs ▸ finish_quiet hpc
  case h_6 rest hpc =>
    obtain rfl := some.inj hs
    exact hmove rfl (posts_notify_self s .event) (by rw [hpc]; rfl) (by simp [hpc])
  case h_7 rest hpc =>
    obtain rfl := some.inj hs
    unfold syncFlags
    split
    · exact hmove rfl (posts_self s) (by rw [hpc]; rfl) (by simp [hpc])
    · exact hmove rfl (posts_notify_self s .event) (by rw [hpc]; rfl) (by simp [hpc])
  case h_8 rest hpc =>
    rw [hpc] at hdrains
    exact absurd hdrains.symm Bool.false_ne_true
  case h_9 rest hpc =>
    obtain rfl := some.inj hs
    refine ⟨rfl, fun h hne => ?_⟩
    have hor : s.notification .timer = true ∨ rest .timer = true →
        (s.notification.or rest) .timer = true := (Bool.or_eq_true _ _).mpr
    obtain hi | hn | hc | hd := h hne
    · exact absurd hi (by simp [hpc])
    · exact .inr (.inl (hor (.inl hn)))
    · rw [hpc] at hc
      exact .inr (.inl (hor (.inr hc)))
    · cases hdrains.symm.trans hd
  case h_10 hpc =>
    obtain rfl := some.inj hs
    unfold processPendingCallbacks
    split <;> exact hmove rfl (posts_self s) (by rw [hpc]; rfl) (by simp [hpc])
  all_goals cases hs

theorem levelStep_quiet {level : Bool} (hs : levelStep s level = some s') : Quiet s s' := by
  unfold levelStep at hs
  split at hs
  case h_1 a rest hpc =>
    rcases deref_cases hs with ⟨it, -, hk⟩ | ⟨-, rfl⟩
    · obtain rfl := some.inj hk
      cases level <;>
        exact .of_move rfl (posts_self s) (by rw [hpc]; rfl) (by simp [hpc]) (by rw [hpc]; rfl)
    · exact .of_posts rfl (posts_faulted s)
  case h_2 a rest hpc =>
    rcases deref_cases hs with ⟨it, -, hk⟩ | ⟨-, rfl⟩
    · obtain rfl := some.inj hk
      exact .of_move rfl (posts_self s) (by rw [hpc]; rfl) (by simp [hpc]) (by rw [hpc]; rfl)
    · exact .of_posts rfl (posts_faulted s)
  case h_3 => cases hs

theorem callbackReturn_quiet {frame : Frame} (hpc : s.pc = .callback frame) :
    Quiet s (callbackReturn s frame) := by
  have hmove : ∀ {pc : Pc}, pc.carried = s.pc.carried → Quiet s { s with pc := pc } :=
    fun hc => .of_move rfl (posts_self s) hc (by simp [hpc]) (by rw [hpc]; rfl)
  cases frame with
  | pendingCallback =>
    exact @Quiet.of_move s { s with pendingQueue := s.pendingQueue.dropLast } rfl (posts_dropLast s)
      .processPendingCallbacks (by rw [hpc]; rfl) (by simp [hpc]) (by rw [hpc]; rfl)
  | _ => exact hmove (by rw [hpc]; rfl)

theorem wake_quiet (hpc : s.pc = .waiting) (hs : wake s = some s') : Quiet s s' := by
  have htimer : Flagged s → s.timerQueue ≠ [] → s.notification .timer = true := by
    intro h hne
    obtain hi | hn | hc | hd := h hne
    · exact absurd (hpc.symm.trans hi) Pc.noConfusion
    · exact hn
    · rw [hpc] at hc
      exact absurd hc Bool.false_ne_true
    · rw [hpc] at hd
      exact absurd hd Bool.false_ne_true
  unfold wake at hs
  split at hs
  · obtain rfl := some.inj hs
    exact ⟨rfl, fun _ _ => .inl rfl⟩
  split at hs
  · obtain rfl := some.inj hs
    refine ⟨rfl, fun h hne => .inr (.inr (.inl ?_))⟩
    exact (Flags.without_of_ne _ _ _ (by decide)).trans (htimer h hne)
  split at hs
  · obtain rfl := some.inj hs
    exact ⟨rfl, fun _ _ => .inr (.inr (.inr rfl))⟩
  next hno =>
    -- without the flag there is no request
    have hnil : Flagged s → s.timerQueue = [] := by
      intro h
      by_contra hne
      exact hno (htimer h hne)
    split at hs
    · obtain rfl := some.inj hs
      exact ⟨rfl, fun h hne => absurd (hnil h) hne⟩
    split at hs
    · obtain rfl := some.inj hs
      exact ⟨rfl, fun h hne => absurd (hnil h) hne⟩
    · cases hs

theorem timeout_cases {callback : Bool} (h : Flagged s) (hpc : s.pc = .waiting)
    (hs : timeout s callback = some s') :
    s.timerQueue = [] ∧ s' = { s with pc := if callback then .callback .timerOrTick else .waiting } := by
  unfold timeout at hs
  split at hs
  · cases hs
  next hany =>
    refine ⟨?_, (some.inj hs).symm⟩
    by_contra hne
    refine hany ?_
    obtain hi | hn | hc | hd := h hne
    · exact absurd (hpc.symm.trans hi) Pc.noConfusion
    · simp [Flags.any, hn]
    · rw [hpc] at hc
      exact absurd hc Bool.false_ne_true
    · rw [hpc] at hd
      exact absurd hd Bool.false_ne_true

/-!
## Timers

The loop with its timers and the clock, which goes on between any two steps. Timers are started,
stopped and freed by requests that the loop takes from a queue; the list of the active ones is
kept in the order in which they expire.
-/

/-- An allocated timer. Its request is in the queue of the loop. `startedAt` and `fired` are no
part of the code: when the timer was last started, on a clock that does not wrap, and how often it
has called back since. -/
structure Timer where
  interval : UInt32
  startTime : UInt32
  nextInterval : UInt32
  active : Bool
  periodic : Bool
  startedAt : Nat
  fired : Nat

namespace Timer

variable (timer : Timer) (tickCount : UInt32)

def getElapsedTime : UInt32 := tickCount - timer.startTime

def getRemainingTime : UInt32 :=
  if timer.getElapsedTime tickCount < timer.interval then
    timer.interval - timer.getElapsedTime tickCount
  else 0

def isExpired : Bool := timer.interval ≤ timer.getElapsedTime tickCount

end Timer

/-- Where the code of the timers stands, within a step of the loop or in a callback. -/
inductive Hand
  | none
  /-- `furi_event_loop_process_timer_queue` is about to schedule the timer. -/
  | schedule (t : Nat)
  /-- `furi_event_loop_process_expired_timers` has unlinked the timer. -/
  | expired (t : Nat)
  /-- It is about to schedule the timer for its next period. -/
  | reschedule (t : Nat)
  | callback (t : Nat)

/-- The timer that is between its old place in the list and the next one. -/
def Hand.unlinked? : Hand → Option Nat
  | .schedule t | .expired t | .reschedule t => some t
  | .none | .callback _ => Option.none

inductive TimerEvent
  | request (t : Nat) (r : TimerRequest)
  | callback (t : Nat)

structure TimedLoop where
  loop : State
  timers : Nat → Option Timer
  timerList : List Nat
  hand : Hand
  /-- Whether a timer that is not allocated was used, or an interval of zero divided by. -/
  crashed : Bool
  /-- The clock, of which the tick counter shows the last 32 bits. -/
  now : Nat
  /-- The requests and callbacks so far, the last one first. -/
  log : List TimerEvent

namespace TimedLoop

def alloc : TimedLoop where
  loop := EventLoop.alloc
  timers := fun _ => none
  timerList := []
  hand := .none
  crashed := false
  now := 0
  log := []

def tickCount (w : TimedLoop) : UInt32 := UInt32.ofNat w.now

def remaining (w : TimedLoop) (t : Nat) : UInt32 :=
  match w.timers t with
  | some timer => timer.getRemainingTime w.tickCount
  | none => 0

def setTimer (w : TimedLoop) (t : Nat) (timer : Timer) : TimedLoop :=
  { w with timers := Function.update w.timers t (some timer) }

def deref (w : TimedLoop) (t : Nat) (k : Timer → Option TimedLoop) : Option TimedLoop :=
  match w.timers t with
  | some timer => k timer
  | none => some { w with crashed := true }

/-- `furi_event_loop_schedule_timer` goes through the list from its end. -/
def scheduleTimer (w : TimedLoop) (t : Nat) : TimedLoop :=
  { w with timerList := backInsert (fun u => w.remaining t < w.remaining u) t w.timerList }

/-- A timer that is not allocated is none that the caller has a pointer to. -/
def enqueueRequest (w : TimedLoop) (t : Nat) (request : TimerRequest) (f : Timer → Timer) :
    Option TimedLoop :=
  match w.timers t with
  | none => none
  | some timer =>
    (step w.loop (.call (.timerEnqueueRequest t request))).map fun s =>
      { w.setTimer t (f timer) with loop := s, log := .request t request :: w.log }

def timerStart (w : TimedLoop) (t : Nat) (interval : UInt32) : Option TimedLoop :=
  w.enqueueRequest t .start fun timer => { timer with nextInterval := interval }

def timerRestart (w : TimedLoop) (t : Nat) : Option TimedLoop :=
  w.enqueueRequest t .start fun timer => { timer with nextInterval := timer.interval }

def timerStop (w : TimedLoop) (t : Nat) : Option TimedLoop := w.enqueueRequest t .stop id

def timerFree (w : TimedLoop) (t : Nat) : Option TimedLoop := w.enqueueRequest t .free id

/-- `malloc` returns zeroed memory. -/
def timerAlloc (w : TimedLoop) (t : Nat) (periodic : Bool) : Option TimedLoop :=
  if w.loop.pc.user && (w.timers t).isNone then
    some (w.setTimer t ⟨0, 0, 0, false, periodic, w.now, 0⟩)
  else none

/-- What `furi_event_loop_process_timer_queue` does with a request, up to the scheduling. -/
def processRequest (w : TimedLoop) (t : Nat) (request : TimerRequest) : Option TimedLoop :=
  w.deref t fun timer =>
    let w := { w with timerList := if timer.active then w.timerList.erase t else w.timerList }
    some <| match request with
      | .start => { w.setTimer t { timer with
          active := true
          interval := timer.nextInterval
          startTime := w.tickCount
          startedAt := w.now
          fired := 0 } with hand := .schedule t }
      | .stop => w.setTimer t { timer with active := false }
      | .free => { w with timers := Function.update w.timers t none }

def loopStep (w : TimedLoop) (l : Label) : Option TimedLoop :=
  match l with
  | .call (.timerEnqueueRequest _ _) | .timeout _ => none
  | .ret => (step w.loop l).map fun s => { w with loop := s, hand := .none }
  | .loop =>
    if w.loop.pc.drainsTimers then
      match w.loop.timerQueue with
      | [] => (step w.loop l).map fun s => { w with loop := s }
      | (t, request) :: _ =>
        (step w.loop l).bind fun s => { w with loop := s }.processRequest t request
    else (step w.loop l).map fun s => { w with loop := s }
  | .call _ | .outside _ | .run | .wake | .level _ =>
    (step w.loop l).map fun s => { w with loop := s }

/-- The wait times out. Only the first timer of the list is looked at; where it is not expired the
tick may call back. -/
def timeout (w : TimedLoop) (tick : Bool) : Option TimedLoop :=
  match w.timerList with
  | [] => (step w.loop (.timeout tick)).map fun s => { w with loop := s }
  | t :: timers =>
    w.deref t fun timer =>
      if timer.isExpired w.tickCount then
        (step w.loop (.timeout true)).map fun s =>
          { w with loop := s, timerList := timers, hand := .expired t }
      else (step w.loop (.timeout tick)).map fun s => { w with loop := s }

def callBack (w : TimedLoop) (t : Nat) (timer : Timer) : TimedLoop :=
  { w.setTimer t { timer with fired := timer.fired + 1 } with
    hand := .callback t
    log := .callback t :: w.log }

/-- What the code of the timers does next where it stands. -/
def timerStep (w : TimedLoop) : Option TimedLoop :=
  match w.hand with
  | .none | .callback _ => none
  | .schedule t => some { w.scheduleTimer t with hand := .none }
  | .expired t =>
    w.deref t fun timer =>
      if timer.periodic then
        if timer.interval = 0 then some { w with crashed := true }
        else
          let numEvents := timer.getElapsedTime w.tickCount / timer.interval
          some { w.setTimer t { timer with
            startTime := timer.startTime + timer.interval * numEvents } with hand := .reschedule t }
      else some (w.callBack t { timer with active := false })
  | .reschedule t => w.deref t fun timer => some ((w.scheduleTimer t).callBack t timer)

inductive Label
  | loop (l : EventLoop.Label)
  | timerAlloc (t : Nat) (periodic : Bool)
  | timerStart (t : Nat) (interval : UInt32)
  | timerRestart (t : Nat)
  | timerStop (t : Nat)
  | timerFree (t : Nat)
  | timeout (tick : Bool)
  | timer
  | tick (n : Nat)

/-- Whether the thread of the loop takes the step, and can do so only where the code of the timers
is not under way. -/
def Label.waits : Label → Bool
  | .loop (.outside _) | .timer | .tick _ => false
  | .loop _ | .timerAlloc _ _ | .timerStart _ _ | .timerRestart _ | .timerStop _ | .timerFree _
  | .timeout _ => true

def transition (w : TimedLoop) : Label → Option TimedLoop
  | .loop l => w.loopStep l
  | .timerAlloc t periodic => w.timerAlloc t periodic
  | .timerStart t interval => w.timerStart t interval
  | .timerRestart t => w.timerRestart t
  | .timerStop t => w.timerStop t
  | .timerFree t => w.timerFree t
  | .timeout tick => w.timeout tick
  | .timer => w.timerStep
  | .tick n => some { w with now := w.now + n }

def step (w : TimedLoop) (l : Label) : Option TimedLoop :=
  if w.crashed || w.loop.fault then none
  else if l.waits && w.hand.unlinked?.isSome then none
  else w.transition l

def machine : Machine TimedLoop Label := ⟨step⟩

/-- A timer that is active is processed within 2^32 ticks of its start. -/
def InTime (w : TimedLoop) : Label → Prop
  | .tick n => ∀ t ∈ w.timerList ++ w.hand.unlinked?.toList, ∀ timer ∈ w.timers t,
      (timer.getElapsedTime w.tickCount).toNat + n < UInt32.size
  | .loop _ | .timerAlloc _ _ | .timerStart _ _ | .timerRestart _ | .timerStop _ | .timerFree _
  | .timeout _ | .timer => True

/-- A periodic timer is started with an interval, and restarted only when it has one; the loop is
not run while requests are queued that nothing tells it of. -/
def WellUsed (w : TimedLoop) : Label → Prop
  | .timerStart t interval => ∀ timer ∈ w.timers t, timer.periodic = true → interval ≠ 0
  | .timerRestart t => ∀ timer ∈ w.timers t, timer.periodic = true → timer.interval ≠ 0
  | .loop .run => w.loop.timerQueue = [] ∨ w.loop.notification .timer = true
  | .loop _ | .timerAlloc _ _ | .timerStop _ | .timerFree _ | .timeout _ | .timer | .tick _ => True

instance (w : TimedLoop) (l : Label) : Decidable (InTime w l) := by
  cases l <;> unfold InTime <;> infer_instance

instance (w : TimedLoop) (l : Label) : Decidable (WellUsed w l) := by
  unfold WellUsed
  split <;> infer_instance

def lastRequest (t : Nat) (log : List TimerEvent) : Option TimerRequest :=
  log.findSome? fun
    | .request u r => if u = t then some r else none
    | .callback _ => none

end TimedLoop
end NikitaFirmware.EventLoop
