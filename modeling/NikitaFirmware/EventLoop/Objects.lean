import Mathlib.Data.BitVec
import NikitaFirmware.EventLoop.Loop

/-!
# The objects of the event loop

Message queues, semaphores and event flags: their operations, whom these notify, and the level
that each kind tells the loop. The threads that use them run between the steps of the loop. An
operation of a queue and the notification after it are two steps of a thread; an event flag is
set or cleared and notified in one critical section.
-/

namespace NikitaFirmware.EventLoop

open List Option
def Direction.event : Direction → Event
  | .In => ⟨true, false, false, false⟩
  | .Out => ⟨false, true, false, false⟩

/-- The queue behind a message queue or a semaphore. What the messages are plays no role. -/
structure Queue where
  length : Nat
  messagesWaiting : Nat
  le : messagesWaiting ≤ length

namespace Queue

def sendToBack (q : Queue) : Option Queue :=
  if h : q.messagesWaiting < q.length then some ⟨q.length, q.messagesWaiting + 1, h⟩ else none

def receive (q : Queue) : Option Queue :=
  if q.messagesWaiting = 0 then none
  else some ⟨q.length, q.messagesWaiting - 1, (Nat.sub_le ..).trans q.le⟩

def reset (q : Queue) : Queue := ⟨q.length, 0, q.length.zero_le⟩

def spacesAvailable (q : Queue) : Nat := q.length - q.messagesWaiting

end Queue

/-- What the loop can be subscribed to. -/
inductive Primitive
  | messageQueue (q : Queue)
  | semaphore (q : Queue)
  | eventFlag (bits : BitVec 32)

def validBits : BitVec 32 := 1#32 <<< 24 - 1#32

def invalidBits : BitVec 32 := ~~~validBits

/-- A `get_level` answers for one of the two words, and crashes on any other. -/
def levelOf (whenIn whenOut : Bool) (event : Event) : Option Bool :=
  if event = Direction.In.event then some whenIn
  else if event = Direction.Out.event then some whenOut
  else none

def messageQueueGetLevel (q : Queue) : Event → Option Bool :=
  levelOf (q.messagesWaiting != 0) (q.spacesAvailable != 0)

def semaphoreGetLevel (q : Queue) : Event → Option Bool :=
  levelOf (q.messagesWaiting != 0) (q.spacesAvailable != 0)

def eventFlagGetLevel (bits : BitVec 32) : Event → Option Bool :=
  levelOf (bits &&& validBits != 0#32) (bits &&& validBits != validBits)

def Primitive.getLevel : Primitive → Event → Option Bool
  | .messageQueue q => messageQueueGetLevel q
  | .semaphore q => semaphoreGetLevel q
  | .eventFlag bits => eventFlagGetLevel bits

/-- What a subscriber waits for: a message or room for one, a unit or room to give one back, a
flag that is set or one that is not. -/
def Primitive.Level : Primitive → Direction → Prop
  | .messageQueue q, .In | .semaphore q, .In => 0 < q.messagesWaiting
  | .messageQueue q, .Out | .semaphore q, .Out => q.messagesWaiting < q.length
  | .eventFlag bits, .In => ∃ i < 24, bits.getLsbD i = true
  | .eventFlag bits, .Out => ∃ i < 24, bits.getLsbD i = false

instance : ∀ (o : Primitive) (d : Direction), Decidable (o.Level d)
  | .messageQueue q, .In | .semaphore q, .In => inferInstanceAs (Decidable (0 < q.messagesWaiting))
  | .messageQueue q, .Out | .semaphore q, .Out =>
    inferInstanceAs (Decidable (q.messagesWaiting < q.length))
  | .eventFlag bits, .In => inferInstanceAs (Decidable (∃ i < 24, bits.getLsbD i = true))
  | .eventFlag bits, .Out => inferInstanceAs (Decidable (∃ i < 24, bits.getLsbD i = false))

/-- Threads, of which the first one runs the loop. -/
abbrev Thread := Nat

def loopThread : Thread := 0

/-- The arguments of `furi_event_flag_wait`. -/
structure Wait where
  flags : BitVec 32
  waitAll : Bool
  exitClr : Bool
  deriving DecidableEq

def Wait.met (w : Wait) (bits : BitVec 32) : Bool :=
  if w.waitAll then bits &&& w.flags == w.flags else bits &&& w.flags != 0#32

def Wait.exit (w : Wait) (bits : BitVec 32) : BitVec 32 :=
  if w.exitClr then bits &&& ~~~w.flags else bits

/-- What a thread is doing inside of an operation: it is about to call
`furi_event_loop_link_notify`, or blocked in `xEventGroupWaitBits`. -/
inductive Activity
  | linkNotify (object : Object) (d : Direction)
  | waitBits (object : Object) (w : Wait)
  deriving DecidableEq

/-- The operations on the objects. -/
inductive Op
  | messageQueuePut
  | messageQueueGet
  | messageQueueReset
  | semaphoreAcquire
  | semaphoreRelease
  | eventFlagSet (flags : BitVec 32)
  | eventFlagClear (flags : BitVec 32)
  | eventFlagWait (w : Wait) (block : Bool)

/-- `xEventGroupSetBits` lets a thread go on that waits for these bits of the object. -/
def release (object : Object) (bits : BitVec 32) : Thread × Activity → Thread × Activity
  | (t, .waitBits o w) =>
    if o = object ∧ w.met bits = true then (t, .linkNotify object .Out) else (t, .waitBits o w)
  | (t, .linkNotify o d) => (t, .linkNotify o d)

def clearedBits (object : Object) (bits : BitVec 32) : List (Thread × Activity) → BitVec 32
  | [] => 0#32
  | (_, .waitBits o w) :: threads =>
    if o = object ∧ w.met bits = true ∧ w.exitClr = true then
      w.flags ||| clearedBits object bits threads
    else clearedBits object bits threads
  | (_, .linkNotify _ _) :: threads => clearedBits object bits threads

/-- What an operation leaves: the object, the threads inside of operations, and whom it notifies
within its critical section. -/
structure Effect where
  object : Primitive
  threads : List (Thread × Activity)
  notified : Option Direction

section Operations

variable (threads : List (Thread × Activity)) (t : Thread) (object : Object)

/-- An operation of a queue, which the thread follows up by a notification where it succeeds. -/
def queueEffect (kind : Queue → Primitive) (q : Queue) (q' : Option Queue) (d : Direction) :
    Effect :=
  match q' with
  | some q' => ⟨kind q', (t, .linkNotify object d) :: threads, none⟩
  | none => ⟨kind q, threads, none⟩

def eventFlagSet (bits flags : BitVec 32) : Option Effect :=
  if flags &&& invalidBits ≠ 0#32 then none
  else
    let rflags := (bits ||| flags) &&& ~~~clearedBits object (bits ||| flags) threads
    some ⟨.eventFlag rflags, threads.map (release object (bits ||| flags)),
      if rflags &&& flags ≠ 0#32 then some .In else none⟩

def eventFlagClear (bits flags : BitVec 32) : Option Effect :=
  if flags &&& invalidBits ≠ 0#32 then none
  else some ⟨.eventFlag (bits &&& ~~~flags), threads,
    if bits &&& flags ≠ 0#32 then some .Out else none⟩

def eventFlagWait (bits : BitVec 32) (w : Wait) (block : Bool) : Option Effect :=
  if w.flags &&& invalidBits ≠ 0#32 then none
  else if w.met bits then
    some ⟨.eventFlag (w.exit bits), (t, .linkNotify object .Out) :: threads, none⟩
  else if block then some ⟨.eventFlag bits, (t, .waitBits object w) :: threads, none⟩
  else some ⟨.eventFlag bits, threads, none⟩

/-- An operation of the thread `t`, which is not inside of another one. -/
def operation : Primitive → Op → Option Effect
  | .messageQueue q, .messageQueuePut =>
    some (queueEffect threads t object .messageQueue q q.sendToBack .In)
  | .messageQueue q, .messageQueueGet =>
    some (queueEffect threads t object .messageQueue q q.receive .Out)
  | .messageQueue q, .messageQueueReset =>
    some (queueEffect threads t object .messageQueue q (some q.reset) .Out)
  | .semaphore q, .semaphoreAcquire =>
    some (queueEffect threads t object .semaphore q q.receive .Out)
  | .semaphore q, .semaphoreRelease =>
    some (queueEffect threads t object .semaphore q q.sendToBack .In)
  | .eventFlag bits, .eventFlagSet flags => eventFlagSet threads object bits flags
  | .eventFlag bits, .eventFlagClear flags => eventFlagClear threads bits flags
  | .eventFlag bits, .eventFlagWait w block => eventFlagWait threads t object bits w block
  | _, _ => none

/-- The time of a wait is up. The bits may have come in the meantime. -/
def waitTimeout (bits : BitVec 32) (w : Wait) : Effect :=
  if w.met bits then ⟨.eventFlag (w.exit bits), (t, .linkNotify object .Out) :: threads, none⟩
  else ⟨.eventFlag bits, threads, none⟩

end Operations

theorem validBits_getLsbD (i : Nat) : validBits.getLsbD i = decide (i < 24) := by
  have h : validBits = (BitVec.allOnes 24).setWidth 32 := rfl
  rw [h, BitVec.getLsbD_setWidth, BitVec.getLsbD_allOnes]
  by_cases hi : i < 24
  · rw [decide_eq_true hi, decide_eq_true (by omega), Bool.and_self]
  · rw [decide_eq_false hi, Bool.and_false]

theorem ne_zero_iff {bits : BitVec 32} : bits ≠ 0#32 ↔ ∃ i, bits.getLsbD i = true := by
  constructor
  · intro h
    by_contra hnone
    refine h (BitVec.eq_of_getLsbD_eq fun i _ => ?_)
    rw [BitVec.getLsbD_zero]
    exact Bool.eq_false_iff.mpr fun hi => hnone ⟨i, hi⟩
  · rintro ⟨i, hi⟩ rfl
    rw [BitVec.getLsbD_zero] at hi
    exact Bool.false_ne_true hi

theorem and_validBits_ne_zero_iff {bits : BitVec 32} :
    bits &&& validBits ≠ 0#32 ↔ ∃ i < 24, bits.getLsbD i = true := by
  rw [ne_zero_iff]
  refine exists_congr fun i => ?_
  rw [BitVec.getLsbD_and, validBits_getLsbD, Bool.and_eq_true, decide_eq_true_eq, and_comm]

theorem and_validBits_ne_iff {bits : BitVec 32} :
    bits &&& validBits ≠ validBits ↔ ∃ i < 24, bits.getLsbD i = false := by
  constructor
  · intro h
    by_contra hnone
    refine h (BitVec.eq_of_getLsbD_eq fun i _ => ?_)
    rw [BitVec.getLsbD_and, validBits_getLsbD]
    by_cases hi : i < 24
    · rw [decide_eq_true hi, Bool.and_true]
      exact Bool.eq_true_of_not_eq_false fun hf => hnone ⟨i, hi, hf⟩
    · rw [decide_eq_false hi, Bool.and_false]
  · rintro ⟨i, hi, hf⟩ heq
    have hbit := congrArg (BitVec.getLsbD · i) heq
    rw [BitVec.getLsbD_and, hf, Bool.false_and, validBits_getLsbD, decide_eq_true hi] at hbit
    exact Bool.false_ne_true hbit

theorem levelOf_event (whenIn whenOut : Bool) (d : Direction) :
    levelOf whenIn whenOut d.event = some (match d with | .In => whenIn | .Out => whenOut) := by
  cases d <;> rfl

theorem Primitive.getLevel_event (o : Primitive) (d : Direction) :
    o.getLevel d.event = some (decide (o.Level d)) := by
  have hqueue : ∀ q : Queue, levelOf (q.messagesWaiting != 0) (q.spacesAvailable != 0) d.event =
        some (decide ((Primitive.messageQueue q).Level d)) := by
    intro q
    rw [levelOf_event]
    apply congrArg some
    rw [Bool.eq_iff_iff, decide_eq_true_eq]
    cases d with
    | In => exact bne_iff_ne.trans Nat.pos_iff_ne_zero.symm
    | Out => exact bne_iff_ne.trans (Nat.sub_ne_zero_iff_lt)
  cases o with
  | messageQueue q => exact hqueue q
  | semaphore q =>
    refine (hqueue q).trans ?_
    cases d <;> rfl
  | eventFlag bits =>
    change levelOf _ _ d.event = _
    rw [levelOf_event]
    apply congrArg some
    rw [Bool.eq_iff_iff, decide_eq_true_eq]
    cases d with
    | In => exact bne_iff_ne.trans and_validBits_ne_zero_iff
    | Out => exact bne_iff_ne.trans and_validBits_ne_iff

section Notified

variable {threads : List (Thread × Activity)} {t t' : Thread} {object object' : Object}
  {d : Direction} {o : Primitive} {op : Op} {e : Effect} {bits flags : BitVec 32} {w : Wait}

/-- The direction is notified within the operation, or by a thread that is about to. -/
def Effect.Notifies (e : Effect) (object : Object) (d : Direction) : Prop :=
  e.notified = some d ∨ ∃ t, (t, .linkNotify object d) ∈ e.threads

theorem exists_waiting_of_cleared (h : clearedBits object bits threads ≠ 0#32) :
    ∃ t, (t, .linkNotify object .Out) ∈ threads.map (release object bits) := by
  induction threads with
  | nil => exact absurd rfl h
  | cons p threads ih =>
    obtain ⟨t, a⟩ := p
    have hrest : clearedBits object bits threads ≠ 0#32 →
        ∃ t', (t', .linkNotify object .Out) ∈ ((t, a) :: threads).map (release object bits) := by
      intro hne
      obtain ⟨t', ht'⟩ := ih hne
      exact ⟨t', mem_cons_of_mem _ ht'⟩
    cases a with
    | linkNotify o d => exact hrest h
    | waitBits o w =>
      rw [clearedBits] at h
      split at h
      · next hw =>
        refine ⟨t, ?_⟩
        rw [map_cons, release, if_pos ⟨hw.1, hw.2.1⟩]
        exact mem_cons_self
      · exact hrest h

theorem exit_level (h : (Primitive.eventFlag (w.exit bits)).Level d) :
    (Primitive.eventFlag bits).Level d ∨ d = .Out := by
  cases d with
  | Out => exact .inr rfl
  | In =>
    obtain ⟨i, hi, hbit⟩ := h
    refine .inl ⟨i, hi, ?_⟩
    unfold Wait.exit at hbit
    split at hbit
    · rw [BitVec.getLsbD_and, Bool.and_eq_true] at hbit
      exact hbit.1
    · exact hbit

theorem eventFlagSet_raises (h : eventFlagSet threads object bits flags = some e)
    (hl : e.object.Level d) : (Primitive.eventFlag bits).Level d ∨ e.Notifies object d := by
  unfold eventFlagSet at h
  split at h
  · cases h
  obtain rfl := some.inj h
  cases d with
  | In =>
    obtain ⟨i, hi, hbit⟩ := hl
    by_cases hold : bits.getLsbD i = true
    · exact .inl ⟨i, hi, hold⟩
    · -- the bit is one of those that are set now
      refine .inr (.inl (if_pos (ne_zero_iff.mpr ⟨i, ?_⟩)))
      rw [BitVec.getLsbD_and, Bool.and_eq_true]
      refine ⟨hbit, ?_⟩
      rw [BitVec.getLsbD_and, BitVec.getLsbD_or, Bool.and_eq_true, Bool.or_eq_true] at hbit
      exact hbit.1.resolve_left hold
  | Out =>
    obtain ⟨i, hi, hbit⟩ := hl
    by_cases hclear : clearedBits object (bits ||| flags) threads = 0#32
    · refine .inl ⟨i, hi, ?_⟩
      rw [hclear, BitVec.getLsbD_and, BitVec.getLsbD_or] at hbit
      cases hold : bits.getLsbD i with
      | false => rfl
      | true =>
        rw [hold, Bool.true_or, Bool.true_and, BitVec.getLsbD_not, BitVec.getLsbD_zero] at hbit
        simp [show i < 32 by omega] at hbit
    · exact .inr (.inr (exists_waiting_of_cleared hclear))

theorem eventFlagClear_raises (h : eventFlagClear threads bits flags = some e)
    (hl : e.object.Level d) : (Primitive.eventFlag bits).Level d ∨ e.Notifies object d := by
  unfold eventFlagClear at h
  split at h
  · cases h
  obtain rfl := some.inj h
  cases d with
  | In =>
    obtain ⟨i, hi, hbit⟩ := hl
    rw [BitVec.getLsbD_and, Bool.and_eq_true] at hbit
    exact .inl ⟨i, hi, hbit.1⟩
  | Out =>
    obtain ⟨i, hi, hbit⟩ := hl
    cases hold : bits.getLsbD i with
    | false => exact .inl ⟨i, hi, hold⟩
    | true =>
      refine .inr (.inl (if_pos (ne_zero_iff.mpr ⟨i, ?_⟩)))
      rw [BitVec.getLsbD_and, hold, Bool.true_and, BitVec.getLsbD_not] at hbit
      rw [BitVec.getLsbD_and, hold, Bool.true_and]
      simpa [show i < 32 by omega] using hbit

theorem queueEffect_raises {kind : Queue → Primitive} {q : Queue} {q' : Option Queue}
    {d' : Direction} (hq : ∀ r, q' = some r → (kind r).Level d → (kind q).Level d ∨ d = d')
    (hl : (queueEffect threads t object kind q q' d').object.Level d) :
    (kind q).Level d ∨ (queueEffect threads t object kind q q' d').Notifies object d := by
  cases q' with
  | none => exact .inl hl
  | some r =>
    refine (hq r rfl hl).imp id fun hd => ?_
    exact .inr ⟨t, hd ▸ mem_cons_self⟩

theorem sendToBack_spec {q r : Queue} (h : q.sendToBack = some r) :
    r.length = q.length ∧ r.messagesWaiting = q.messagesWaiting + 1 := by
  unfold Queue.sendToBack at h
  split at h
  · obtain rfl := some.inj h
    exact ⟨rfl, rfl⟩
  · cases h

theorem receive_spec {q r : Queue} (h : q.receive = some r) :
    r.length = q.length ∧ r.messagesWaiting = q.messagesWaiting - 1 := by
  unfold Queue.receive at h
  split at h
  · cases h
  · obtain rfl := some.inj h
    exact ⟨rfl, rfl⟩

theorem operation_raises (h : operation threads t object o op = some e) (hl : e.object.Level d) :
    o.Level d ∨ e.Notifies object d := by
  -- a message more or less raises one of the levels at most
  have hsend : ∀ {q r : Queue}, q.sendToBack = some r →
      (r.messagesWaiting < r.length → q.messagesWaiting < q.length) := by
    intro q r hr hlt
    obtain ⟨hlen, hw⟩ := sendToBack_spec hr
    omega
  have hreceive : ∀ {q r : Queue}, q.receive = some r →
      (0 < r.messagesWaiting → 0 < q.messagesWaiting) := by
    intro q r hr hlt
    obtain ⟨hlen, hw⟩ := receive_spec hr
    omega
  unfold operation at h
  split at h
  case h_1 q =>
    obtain rfl := some.inj h
    refine queueEffect_raises (fun r hr hlr => ?_) hl
    cases d with
    | In => exact .inr rfl
    | Out => exact .inl (hsend hr hlr)
  case h_2 q =>
    obtain rfl := some.inj h
    refine queueEffect_raises (fun r hr hlr => ?_) hl
    cases d with
    | In => exact .inl (hreceive hr hlr)
    | Out => exact .inr rfl
  case h_3 q =>
    obtain rfl := some.inj h
    refine queueEffect_raises (fun r hr hlr => ?_) hl
    obtain rfl := some.inj hr
    cases d with
    | In => exact absurd hlr (Nat.lt_irrefl 0)
    | Out => exact .inr rfl
  case h_4 q =>
    obtain rfl := some.inj h
    refine queueEffect_raises (fun r hr hlr => ?_) hl
    cases d with
    | In => exact .inl (hreceive hr hlr)
    | Out => exact .inr rfl
  case h_5 q =>
    obtain rfl := some.inj h
    refine queueEffect_raises (fun r hr hlr => ?_) hl
    cases d with
    | In => exact .inr rfl
    | Out => exact .inl (hsend hr hlr)
  case h_6 bits flags => exact eventFlagSet_raises h hl
  case h_7 bits flags => exact eventFlagClear_raises h hl
  case h_8 bits w block =>
    unfold eventFlagWait at h
    split at h
    · cases h
    split at h
    · obtain rfl := some.inj h
      exact (exit_level hl).imp id fun (hd : d = .Out) => .inr ⟨t, hd ▸ mem_cons_self⟩
    split at h
    · obtain rfl := some.inj h
      exact .inl hl
    · obtain rfl := some.inj h
      exact .inl hl
  case h_9 => cases h

theorem waitTimeout_raises (hl : (waitTimeout threads t object bits w).object.Level d) :
    (Primitive.eventFlag bits).Level d ∨ (waitTimeout threads t object bits w).Notifies object d := by
  unfold waitTimeout at hl ⊢
  split at hl
  · next hmet =>
    rw [if_pos hmet]
    exact (exit_level hl).imp id fun (hd : d = .Out) => .inr ⟨t, hd ▸ mem_cons_self⟩
  · exact .inl hl

theorem operation_threads (h : operation threads t object o op = some e)
    (ht : (t', .linkNotify object' d) ∈ threads) : (t', .linkNotify object' d) ∈ e.threads := by
  have hqueue : ∀ {kind q q' d'}, (t', Activity.linkNotify object' d) ∈
      (queueEffect threads t object kind q q' d').threads := by
    intro kind q q' d'
    cases q' with
    | none => exact ht
    | some r => exact mem_cons_of_mem _ ht
  unfold operation at h
  split at h
  case h_6 bits flags =>
    unfold eventFlagSet at h
    split at h
    · cases h
    obtain rfl := some.inj h
    exact mem_map.mpr ⟨_, ht, rfl⟩
  case h_7 bits flags =>
    unfold eventFlagClear at h
    split at h
    · cases h
    exact some.inj h ▸ ht
  case h_8 bits w block =>
    unfold eventFlagWait at h
    split at h
    · cases h
    split at h
    · exact some.inj h ▸ mem_cons_of_mem _ ht
    split at h
    · exact some.inj h ▸ mem_cons_of_mem _ ht
    · exact some.inj h ▸ ht
  case h_9 => cases h
  all_goals exact some.inj h ▸ hqueue

end Notified

end NikitaFirmware.EventLoop
