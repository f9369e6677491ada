import NikitaFirmware.Foundations.Machine

/-!
# The event loop

The thread of the loop runs `furi_event_loop_run` one critical section at a time; between two of
them any other thread may notify a link, set the thread flags or stop the loop. The callbacks
are arbitrary.

A read or a free of an item that is not allocated sets `fault`, and nothing runs after it. A
failing `furi_check` halts the firmware, so such a step has no successor.
-/

namespace NikitaFirmware.EventLoop
open Foundations Function

/-- The bits of the notification value. -/
inductive Flag
  | event
  | stop
  | timer
  | pending
  | threadFlag
  deriving DecidableEq

abbrev Flags := Flag → Bool

def Flags.none : Flags := fun _ => false

def Flags.without (flags : Flags) (f : Flag) : Flags := update flags f false

def Flags.set (flags : Flags) (f : Flag) : Flags := update flags f true

def Flags.or (a b : Flags) : Flags := fun f => a f || b f

def Flags.any (flags : Flags) : Bool :=
  flags .event || flags .stop || flags .timer || flags .pending || flags .threadFlag

/-- Addresses of items. -/
abbrev Addr := Nat

abbrev Object := Nat

inductive Direction
  | In
  | Out
  deriving DecidableEq

/-- The bits of `FuriEventLoopEvent`. -/
structure Event where
  eventIn : Bool
  eventOut : Bool
  edge : Bool
  once : Bool
  deriving DecidableEq

/-- `event & FuriEventLoopEventMask`, where it is one of the two directions. -/
def Event.noflags? (e : Event) : Option Direction :=
  match e.eventIn, e.eventOut with
  | true, false => some .In
  | false, true => some .Out
  | _, _ => none

def Event.notified? (e : Event) : Option Direction :=
  if e.eventIn then some .In else if e.eventOut then some .Out else none

/-- An allocated item. `owner` is whether the pointer to the loop is set; `serial` counts the
allocations and is no part of the code. -/
structure Item where
  owner : Bool
  event : Event
  object : Object
  serial : Nat

/-- A field of `FuriEventLoopLink`; the object may be subscribed to by another loop as well. -/
inductive LinkItem
  | null
  | item (a : Addr)
  | otherLoop
  deriving DecidableEq

inductive ProcessStatus
  | complete
  | incomplete
  | freeLater

inductive TimerRequest
  | start
  | stop
  | free
  deriving DecidableEq

/-- Where the loop goes on when a callback returns. `rest` are the flags of this iteration
other than the one that is handled. -/
inductive Frame
  | edgeEvent (item : Addr) (rest : Flags)
  | levelEvent (item : Addr) (rest : Flags)
  | pendingCallback
  | threadFlags
  | timerOrTick

/-- Where the thread of the loop stands. -/
inductive Pc
  /-- Outside of `furi_event_loop_run`, before it and after it. -/
  | idle
  | waiting
  | getWaitingItem (rest : Flags)
  | processEvent (item : Addr) (rest : Flags)
  | setCurrentItem (item : Addr) (rest : Flags)
  | getLevel (item : Addr) (rest : Flags)
  | callback (frame : Frame)
  | getLevelAgain (item : Addr) (rest : Flags)
  | processed (item : Addr) (rest : Flags) (status : ProcessStatus)
  | finish (item : Addr) (rest : Flags) (status : ProcessStatus)
  | notifyEvent (rest : Flags)
  | syncFlags (rest : Flags)
  | processTimerQueue (rest : Flags)
  | restoreFlags (rest : Flags)
  | processPendingCallbacks

structure State where
  items : Addr → Option Item
  tree : Object → Option Addr
  link : Object → Direction → LinkItem
  waitingList : List Addr
  currentItem : Option Addr
  timerQueue : List (Nat × TimerRequest)
  pendingQueue : List Nat
  areThreadFlagsSubscribed : Bool
  /-- The notification value of the thread of the loop. -/
  notification : Flags
  pc : Pc
  fault : Bool
  /-- The bits set since their branch was last entered, whatever became of them. -/
  owed : Flags
  /-- How many items have been allocated, and the serials of those that were freed. -/
  allocated : Nat
  freed : List Nat

/-- `xTaskNotifyIndexed` with `eSetBits` for one bit. -/
def notify (s : State) (f : Flag) : State :=
  { s with notification := s.notification.set f, owed := s.owed.set f }

def faulted (s : State) : State := { s with fault := true }

def deref (s : State) (a : Addr) (k : Item → Option State) : Option State :=
  match s.items a with
  | some it => k it
  | none => some (faulted s)

def itemFree (s : State) (a : Addr) : State :=
  match s.items a with
  | some it => { s with items := update s.items a none, freed := it.serial :: s.freed }
  | none => faulted s

def itemFreeLater (s : State) (a : Addr) : State :=
  match s.items a with
  | some it => { s with items := update s.items a (some { it with owner := false }) }
  | none => faulted s

def pushWaiting (s : State) (a : Addr) : State :=
  { s with waitingList := if a ∈ s.waitingList then s.waitingList else s.waitingList ++ [a] }

/-- The critical section of `furi_event_loop_item_notify`; the list is reached through the
owner. -/
def itemEnqueue (s : State) (a : Addr) : State :=
  match s.items a with
  | some it => if it.owner then pushWaiting s a else faulted s
  | none => faulted s

def itemNotify (s : State) (a : Addr) : State := notify (itemEnqueue s a) .event

def linkNotify (s : State) (object : Object) (event : Event) : Option State :=
  match event.notified? with
  | some d =>
    match s.link object d with
    | .item a => some (itemNotify s a)
    | .null | .otherLoop => some s
  | none => none

/-- A new item at the address `a` in the tree and in the link of its object. -/
def addItem (s : State) (object : Object) (event : Event) (a : Addr) (d : Direction) : State :=
  { s with
    items := update s.items a (some ⟨true, event, object, s.allocated⟩)
    tree := update s.tree object (some a)
    link := update s.link object (update (s.link object) d (.item a))
    allocated := s.allocated + 1 }

/-- `furi_event_loop_object_subscribe`; `a` is what `malloc` returns and `level` what
`get_level` does. -/
def objectSubscribe (s : State) (object : Object) (event : Event) (a : Addr) (level : Bool) :
    Option State :=
  if s.tree object ≠ none ∨ s.items a ≠ none then none
  else match event.noflags? with
    | none => none
    | some d =>
      if s.link object d ≠ .null then none
      else if !event.edge && level then some (itemNotify (addItem s object event a d) a)
      else some (addItem s object event a d)

/-- The item leaves the tree, the link of its object and the waiting list. -/
def unlinkItem (s : State) (object : Object) (a : Addr) (d : Direction) : State :=
  { s with
    tree := update s.tree object none
    link := update s.link object (update (s.link object) d .null)
    waitingList := s.waitingList.erase a }

def unsubscribe (s : State) (object : Object) : Option State :=
  match s.tree object with
  | none => none
  | some a => deref s a fun it =>
    if !it.owner then none
    else match it.event.noflags? with
      | none => none
      | some d =>
        if s.link object d ≠ .item a then none
        else if s.currentItem = some a then some (itemFreeLater (unlinkItem s object a d) a)
        else some (itemFree (unlinkItem s object a d) a)

/-- `furi_event_loop_pend_callback`; the queue belongs to the thread of the loop alone. -/
def pendCallback (s : State) (callback : Nat) : State :=
  notify { s with pendingQueue := callback :: s.pendingQueue } .pending

/-- `furi_event_loop_timer_enqueue_request`. A timer has a request exactly while it is in the
queue. -/
def timerEnqueueRequest (s : State) (timer : Nat) (request : TimerRequest) : Option State :=
  if (timer, .free) ∈ s.timerQueue then none
  else some (notify { s with
    timerQueue := s.timerQueue.filter (fun t => t.1 ≠ timer) ++ [(timer, request)] } .timer)

def subscribeThreadFlags (s : State) : Option State :=
  if s.areThreadFlagsSubscribed then none else some { s with areThreadFlagsSubscribed := true }

def unsubscribeThreadFlags (s : State) : Option State :=
  if s.areThreadFlagsSubscribed then some { s with areThreadFlagsSubscribed := false } else none

/-- `xTaskNotifyWaitIndexed` returns with all bits cleared, and the branch of one of them is
entered. -/
def wake (s : State) : Option State :=
  if s.notification .stop then some { s with notification := Flags.none, pc := .idle }
  else if s.notification .event then
    some { s with
      notification := Flags.none
      owed := s.owed.without .event
      pc := .getWaitingItem (s.notification.without .event) }
  else if s.notification .timer then
    some { s with
      notification := Flags.none
      owed := s.owed.without .timer
      pc := .processTimerQueue (s.notification.without .timer) }
  else if s.notification .pending then
    some { s with
      notification := Flags.none
      owed := s.owed.without .pending
      pc := .processPendingCallbacks }
  else if s.notification .threadFlag then
    some { s with
      notification := Flags.none
      owed := s.owed.without .threadFlag
      pc := if s.areThreadFlagsSubscribed then .callback .threadFlags else .waiting }
  else none

/-- `xTaskNotifyWaitIndexed` times out: a timer or the tick may call back. -/
def timeout (s : State) (callback : Bool) : Option State :=
  if s.notification.any then none
  else some { s with pc := if callback then .callback .timerOrTick else .waiting }

/-- `furi_event_loop_process_waiting_list` up to its call of `furi_event_loop_process_event`. -/
def getWaitingItem (s : State) (rest : Flags) : State :=
  match s.waitingList with
  | [] => { s with pc := .restoreFlags rest }
  | a :: waiting => { s with waitingList := waiting, pc := .processEvent a rest }

def processEvent (s : State) (a : Addr) (rest : Flags) : Option State :=
  deref s a fun it =>
    if it.event.once then
      (unsubscribe s it.object).map fun s => { s with pc := .setCurrentItem a rest }
    else some { s with pc := .setCurrentItem a rest }

def setCurrentItem (s : State) (a : Addr) (rest : Flags) : Option State :=
  deref s a fun it => some { s with
    currentItem := some a
    pc := if it.event.edge then .callback (.edgeEvent a rest) else .getLevel a rest }

/-- The end of `furi_event_loop_process_event`. -/
def processed (s : State) (a : Addr) (rest : Flags) (status : ProcessStatus) : Option State :=
  deref s a fun it => some { s with
    currentItem := none
    pc := .finish a rest (if it.owner then status else .freeLater) }

/-- What `furi_event_loop_process_waiting_list` does with the status. -/
def finish (s : State) (a : Addr) (rest : Flags) : ProcessStatus → State
  | .complete => { s with pc := .syncFlags rest }
  | .incomplete => { itemEnqueue s a with pc := .notifyEvent rest }
  | .freeLater => { itemFree s a with pc := .syncFlags rest }

def syncFlags (s : State) (rest : Flags) : State :=
  if s.waitingList = [] then { s with pc := .restoreFlags rest }
  else { notify s .event with pc := .restoreFlags rest }

def restoreFlags (s : State) (rest : Flags) : State :=
  { s with notification := s.notification.or rest, pc := .waiting }

def processTimerQueue (s : State) (rest : Flags) : State :=
  match s.timerQueue with
  | [] => { s with pc := .restoreFlags rest }
  | _ :: timers => { s with timerQueue := timers }

/-- The test of the loop in `furi_event_loop_process_pending_callbacks`. -/
def processPendingCallbacks (s : State) : State :=
  if s.pendingQueue = [] then { s with pc := .waiting }
  else { s with pc := .callback .pendingCallback }

/-- What the loop does by itself where it stands. -/
def loopStep (s : State) : Option State :=
  match s.pc with
  | .getWaitingItem rest => some (getWaitingItem s rest)
  | .processEvent a rest => processEvent s a rest
  | .setCurrentItem a rest => setCurrentItem s a rest
  | .processed a rest status => processed s a rest status
  | .finish a rest status => some (finish s a rest status)
  | .notifyEvent rest => some { notify s .event with pc := .syncFlags rest }
  | .syncFlags rest => some (syncFlags s rest)
  | .processTimerQueue rest => some (processTimerQueue s rest)
  | .restoreFlags rest => some (restoreFlags s rest)
  | .processPendingCallbacks => some (processPendingCallbacks s)
  | .idle | .waiting | .getLevel _ _ | .callback _ | .getLevelAgain _ _ => none

/-- `get_level` returns to `furi_event_loop_process_level_event`. -/
def levelStep (s : State) (level : Bool) : Option State :=
  match s.pc with
  | .getLevel a rest => deref s a fun _ => some { s with
      pc := if level then .callback (.levelEvent a rest) else .processed a rest .complete }
  | .getLevelAgain a rest => deref s a fun _ => some { s with
      pc := .processed a rest (if level then .incomplete else .complete) }
  | _ => none

def callbackReturn (s : State) : Frame → State
  | .edgeEvent a rest => { s with pc := .processed a rest .complete }
  | .levelEvent a rest => { s with pc := .getLevelAgain a rest }
  | .pendingCallback =>
    { s with pendingQueue := s.pendingQueue.dropLast, pc := .processPendingCallbacks }
  | .threadFlags | .timerOrTick => { s with pc := .waiting }

/-- Whether the code that uses the loop runs on its thread. -/
def Pc.user : Pc → Bool
  | .idle | .callback _ => true
  | _ => false

inductive Call
  | objectSubscribe (object : Object) (event : Event) (a : Addr) (level : Bool)
  | unsubscribe (object : Object)
  | pendCallback (callback : Nat)
  | timerEnqueueRequest (timer : Nat) (request : TimerRequest)
  | subscribeThreadFlags
  | unsubscribeThreadFlags

def call (s : State) : Call → Option State
  | .objectSubscribe object event a level => objectSubscribe s object event a level
  | .unsubscribe object => unsubscribe s object
  | .pendCallback callback => some (pendCallback s callback)
  | .timerEnqueueRequest timer request => timerEnqueueRequest s timer request
  | .subscribeThreadFlags => subscribeThreadFlags s
  | .unsubscribeThreadFlags => unsubscribeThreadFlags s

/-- What other threads do. -/
inductive Outside
  | linkNotify (object : Object) (event : Event)
  | threadFlagCallback
  | stop
  | otherLoop (object : Object) (direction : Direction) (subscribe : Bool)

def otherLoop (s : State) (object : Object) (d : Direction) (subscribe : Bool) : Option State :=
  if s.link object d = (if subscribe then .null else .otherLoop) then
    some { s with
      link := update s.link object
        (update (s.link object) d (if subscribe then .otherLoop else .null)) }
  else none

def outside (s : State) : Outside → Option State
  | .linkNotify object event => linkNotify s object event
  | .threadFlagCallback => some (notify s .threadFlag)
  | .stop => some (notify s .stop)
  | .otherLoop object direction subscribe => otherLoop s object direction subscribe

inductive Label
  | call (c : Call)
  | outside (o : Outside)
  | run
  | wake
  | timeout (callback : Bool)
  | loop
  | level (level : Bool)
  | ret

def transition (s : State) : Label → Option State
  | .call c => if s.pc.user then call s c else none
  | .outside o => outside s o
  | .run => match s.pc with
    | .idle => some { s with pc := .waiting }
    | _ => none
  | .wake => match s.pc with
    | .waiting => wake s
    | _ => none
  | .timeout callback => match s.pc with
    | .waiting => timeout s callback
    | _ => none
  | .loop => loopStep s
  | .level level => levelStep s level
  | .ret => match s.pc with
    | .callback frame => some (callbackReturn s frame)
    | _ => none

/-- Nothing runs after a fault. -/
def step (s : State) (l : Label) : Option State :=
  if s.fault then none else transition s l

def machine : Machine State Label := ⟨step⟩

/-- The loop right after `furi_event_loop_alloc`. -/
def alloc : State where
  items := fun _ => none
  tree := fun _ => none
  link := fun _ _ => .null
  waitingList := []
  currentItem := none
  timerQueue := []
  pendingQueue := []
  areThreadFlagsSubscribed := false
  notification := Flags.none
  pc := .idle
  fault := false
  owed := Flags.none
  allocated := 0
  freed := []

section Cases

variable {s s' : State} {a : Addr} {object : Object} {event : Event} {level : Bool}

theorem deref_cases {k : Item → Option State} (h : deref s a k = some s') :
    (∃ it, s.items a = some it ∧ k it = some s') ∨ s.items a = none ∧ s' = faulted s := by
  unfold deref at h
  split at h
  case h_1 it hit => exact .inl ⟨it, hit, h⟩
  case h_2 hnone => exact .inr ⟨hnone, (Option.some.inj h).symm⟩

theorem objectSubscribe_cases (h : objectSubscribe s object event a level = some s') :
    ∃ d, s.tree object = none ∧ s.items a = none ∧ event.noflags? = some d ∧
      s.link object d = .null ∧
      s' = if !event.edge && level then itemNotify (addItem s object event a d) a
        else addItem s object event a d := by
  unfold objectSubscribe at h
  split at h
  · cases h
  case isFalse hfree =>
    rw [not_or, not_not, not_not] at hfree
    split at h
    · cases h
    case h_2 d hd =>
      split at h
      · cases h
      case isFalse hlink =>
        refine ⟨d, hfree.1, hfree.2, hd, not_not.mp hlink, ?_⟩
        split at h
        case isTrue hl => rw [if_pos hl, Option.some.inj h]
        case isFalse hl => rw [if_neg hl, Option.some.inj h]

theorem unsubscribe_cases (h : unsubscribe s object = some s') : ∃ a, s.tree object = some a ∧
      ((s.items a = none ∧ s' = faulted s) ∨
        ∃ it d, s.items a = some it ∧ it.owner = true ∧ it.event.noflags? = some d ∧
          s.link object d = .item a ∧
          s' = if s.currentItem = some a then itemFreeLater (unlinkItem s object a d) a
            else itemFree (unlinkItem s object a d) a) := by
  unfold unsubscribe at h
  split at h
  · cases h
  case h_2 a htree =>
    refine ⟨a, htree, ?_⟩
    cases deref_cases h with
    | inr hnone => exact .inl hnone
    | inl hk =>
      obtain ⟨it, hit, hk⟩ := hk
      split at hk
      · cases hk
      case isFalse howner =>
        split at hk
        · cases hk
        case h_2 d hd =>
          split at hk
          · cases hk
          case isFalse hlink =>
            refine .inr ⟨it, d, hit, by simpa using howner, hd, not_not.mp hlink, ?_⟩
            split at hk
            case isTrue hc => rw [if_pos hc, Option.some.inj hk]
            case isFalse hc => rw [if_neg hc, Option.some.inj hk]

theorem otherLoop_cases {d : Direction} {subscribe : Bool}
    (h : otherLoop s object d subscribe = some s') :
    s.link object d = (if subscribe then .null else .otherLoop) ∧ s' = { s with
        link := update s.link object
          (update (s.link object) d (if subscribe then .otherLoop else .null)) } := by
  unfold otherLoop at h
  by_cases hl : s.link object d = (if subscribe then .null else .otherLoop)
  · rw [if_pos hl] at h
    exact ⟨hl, (Option.some.inj h).symm⟩
  · rw [if_neg hl] at h
    cases h

end Cases

end NikitaFirmware.EventLoop
