import NikitaFirmware.EventLoop.Items
import NikitaFirmware.EventLoop.Objects

/-!
# Level-triggered events

The loop together with the objects that it is subscribed to and the threads that use them.
Whatever `get_level` tells the loop is computed from the object and the word it is asked with.
-/

namespace NikitaFirmware.EventLoop
open Foundations

def Event.noflags (e : Event) : Event := ⟨e.eventIn, e.eventOut, false, false⟩

/-- The item that `furi_event_loop_process_level_event` calls `get_level` for. -/
def Pc.asks? : Pc → Option Addr
  | .getLevel a _ | .getLevelAgain a _ => some a
  | _ => none

def Pc.again : Pc → Bool
  | .getLevelAgain _ _ => true
  | _ => false

structure World where
  loop : State
  objects : Object → Primitive
  /-- The threads that are inside of an operation. -/
  threads : List (Thread × Activity)
  /-- Whether a `get_level` has run into `furi_crash`. -/
  crashed : Bool
  /-- The object as the last `get_level` of the loop found it; no part of the code. -/
  looked : Option (Object × Primitive)
  /-- The item of this iteration, where it was still subscribed and its level held when
  `get_level` was called again; no part of the code. -/
  held : Option Addr

namespace World

/-- The primitives exist before the loop is subscribed to any of them. -/
def alloc (objects : Object → Primitive) : World where
  loop := EventLoop.alloc
  objects := objects
  threads := []
  crashed := false
  looked := none
  held := none

def busy (w : World) (t : Thread) : Bool := w.threads.any fun p => p.1 == t

/-- Whether the item is subscribed and the level of its direction holds. -/
def holds (w : World) (it : Item) : Bool :=
  it.owner && it.event.noflags?.any fun d => decide ((w.objects it.object).Level d)

/-- `furi_event_loop_object_subscribe` asks with the masked word. -/
def subscribe (w : World) (object : Object) (event : Event) (a : Addr) : Option World :=
  match (w.objects object).getLevel event.noflags with
  | some level =>
    (step w.loop (.call (.objectSubscribe object event a level))).map fun s => { w with loop := s }
  | none => none

/-- `furi_event_loop_process_level_event` asks with the whole word. -/
def getLevel (w : World) : Option World :=
  match w.loop.pc.asks? with
  | none => none
  | some a =>
    match w.loop.items a with
    | none => (step w.loop (.level false)).map fun s => { w with loop := s }
    | some it =>
      match (w.objects it.object).getLevel it.event with
      | none => some { w with crashed := true }
      | some level => (step w.loop (.level level)).map fun s => { w with
          loop := s
          looked := some (it.object, w.objects it.object)
          held := if w.loop.pc.again && w.holds it then some a else none }

def notify (w : World) (object : Object) (d : Direction) : Option World :=
  (step w.loop (.outside (.linkNotify object d.event))).map fun s => { w with loop := s }

/-- The effect of an operation, and the notification that belongs to it. -/
def take (w : World) (object : Object) (e : Effect) : Option World :=
  let w := { w with objects := Function.update w.objects object e.object, threads := e.threads }
  match e.notified with
  | some d => w.notify object d
  | none => some w

def loopStep (w : World) (l : Label) : Option World :=
  match l with
  | .level _ | .call (.objectSubscribe _ _ _ _) => none
  | .run | .wake | .timeout _ => (step w.loop l).map fun s => { w with loop := s, held := none }
  | .call _ | .outside _ | .loop | .ret => (step w.loop l).map fun s => { w with loop := s }

inductive Label
  | loop (l : EventLoop.Label)
  | subscribe (object : Object) (event : Event) (a : Addr)
  | getLevel
  | operation (t : Thread) (object : Object) (op : Op)
  | linkNotify (t : Thread) (object : Object) (d : Direction)
  | waitTimeout (t : Thread) (object : Object) (wait : Wait)

/-- Whether the thread of the loop takes the step. -/
def Label.own : Label → Bool
  | .loop (.outside _) => false
  | .loop _ | .subscribe _ _ _ | .getLevel => true
  | .operation t _ _ => t == loopThread
  | .linkNotify _ _ _ | .waitTimeout _ _ _ => false

def transition (w : World) : Label → Option World
  | .loop l => w.loopStep l
  | .subscribe object event a => w.subscribe object event a
  | .getLevel => w.getLevel
  | .operation t object op =>
    if w.busy t || t == loopThread && !w.loop.pc.user then none
    else (operation w.threads t object (w.objects object) op).bind (w.take object)
  | .linkNotify t object d =>
    if (t, .linkNotify object d) ∈ w.threads then
      { w with threads := w.threads.erase (t, .linkNotify object d) }.notify object d
    else none
  | .waitTimeout t object wait =>
    if (t, .waitBits object wait) ∈ w.threads then
      match w.objects object with
      | .eventFlag bits => w.take object
          (waitTimeout (w.threads.erase (t, .waitBits object wait)) t object bits wait)
      | _ => none
    else none

/-- Nothing runs after a crash, and the thread of the loop goes on when its operation is over. -/
def step (w : World) (l : Label) : Option World :=
  if w.crashed || w.loop.fault then none
  else if l.own && w.busy loopThread then none
  else w.transition l

def machine : Machine World Label := ⟨step⟩

def OnceNotProcessed (w : World) : Label → Prop
  | .loop l => EventLoop.OnceNotProcessed w.loop l
  | .subscribe _ _ _ | .getLevel | .operation _ _ _ | .linkNotify _ _ _ | .waitTimeout _ _ _ => True

instance (w : World) (l : Label) : Decidable (OnceNotProcessed w l) := by
  cases l <;> unfold OnceNotProcessed <;> infer_instance

end World

end NikitaFirmware.EventLoop
