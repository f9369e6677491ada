import NikitaFirmware.Foundations.Machine
import Mathlib.Data.List.Range

/-!
# Key events

`input_srv` debounces the keys one after the other and publishes their events, and the press timer
of a key publishes its long and repeated presses from another thread.
-/

namespace NikitaFirmware.Input

open Foundations

abbrev INPUT_DEBOUNCE_TICKS : UInt8 := 4
abbrev INPUT_DEBOUNCE_TICKS_HALF : UInt8 := INPUT_DEBOUNCE_TICKS / 2
abbrev INPUT_LONG_PRESS_COUNTS : UInt8 := 2

inductive InputType where
  | press
  | release
  | short
  | long
  | repeat
  deriving DecidableEq

/-- An event of a hardware key, with the 30 bits of its sequence counter. -/
structure InputEvent (κ : Type*) where
  key : κ
  type : InputType
  sequenceCounter : BitVec 30

structure InputPinState where
  state : Bool
  debounce : UInt8
  pressCounter : UInt8
  counter : UInt32
  /-- the press timer is started, and no stop of it is complete -/
  running : Bool

namespace InputPinState

def sequence (pin : InputPinState) : BitVec 30 := BitVec.ofNat 30 pin.counter.toNat

def debounced (pin : InputPinState) (level : Bool) : InputPinState :=
  if level then
    if pin.debounce < INPUT_DEBOUNCE_TICKS then { pin with debounce := pin.debounce + 1 } else pin
  else
    if 0 < pin.debounce then { pin with debounce := pin.debounce - 1 } else pin

/-- `input_press_timer_callback`, with the type of the event that it publishes. -/
def pressTimerCallback (pin : InputPinState) : InputPinState × Option InputType :=
  let pressCounter := pin.pressCounter + 1
  if pressCounter = INPUT_LONG_PRESS_COUNTS then ({ pin with pressCounter }, some .long)
  else if INPUT_LONG_PRESS_COUNTS < pressCounter then
    ({ pin with pressCounter := pressCounter - 1 }, some .repeat)
  else ({ pin with pressCounter }, none)

end InputPinState

/-- Where the thread of `input_srv` is: in its scan of the keys, behind the start of a press timer,
or waiting for one to stop. -/
inductive Work (κ : Type*) where
  | scan
  | started (key : κ)
  | stopping (key : κ)

structure InputSrv (κ : Type*) where
  pins : κ → InputPinState
  counter : UInt32
  work : Work κ
  events : List (InputEvent κ)

inductive Action (κ : Type*) where
  /-- the thread reads the level of a key -/
  | sample (key : κ) (level : Bool)
  /-- it goes on behind `furi_timer_start` -/
  | pressed
  /-- it goes on behind the wait for the stop of the timer -/
  | stopped
  /-- a press timer expires -/
  | expire (key : κ)

variable {κ : Type*} [DecidableEq κ]

namespace InputSrv

def setPin (s : InputSrv κ) (key : κ) (pin : InputPinState) : InputSrv κ :=
  { s with pins := Function.update s.pins key pin }

def publish (s : InputSrv κ) (key : κ) (type : InputType) : InputSrv κ :=
  { s with events := s.events ++ [⟨key, type, (s.pins key).sequence⟩] }

def sample (s : InputSrv κ) (key : κ) (level : Bool) : InputSrv κ :=
  let pin := (s.pins key).debounced level
  if 0 < pin.debounce ∧ pin.debounce < INPUT_DEBOUNCE_TICKS then s.setPin key pin
  else if pin.state ≠ level then
    if level then
      let started : InputSrv κ :=
        s.setPin key { pin with state := level, counter := s.counter, running := true }
      { started with counter := s.counter + 1, work := .started key }
    else
      let stopping : InputSrv κ := s.setPin key { pin with state := level }
      { stopping with work := .stopping key }
  else s.setPin key pin

/-- The end of a release, with a short press where the timer has not come to a long one. -/
def finishStop (s : InputSrv κ) (key : κ) : InputSrv κ :=
  let s := if (s.pins key).pressCounter < INPUT_LONG_PRESS_COUNTS then s.publish key .short else s
  let reset : InputSrv κ :=
    s.setPin key { s.pins key with pressCounter := 0, running := false }
  { reset.publish key .release with work := .scan }

def expire (s : InputSrv κ) (key : κ) : InputSrv κ :=
  let fired := (s.pins key).pressTimerCallback
  match fired.2 with
  | none => s.setPin key fired.1
  | some type => (s.setPin key fired.1).publish key type

end InputSrv

/-- The service with its press timers. -/
def machine : Machine (InputSrv κ) (Action κ) where
  step s
    | .sample key level => match s.work with
      | .scan => some (s.sample key level)
      | _ => none
    | .pressed => match s.work with
      | .started key => some { s.publish key .press with work := .scan }
      | _ => none
    | .stopped => match s.work with
      | .stopping key => some (s.finishStop key)
      | _ => none
    | .expire key => if (s.pins key).running then some (s.expire key) else none

/-- The service at the head of its loop, with the levels of the keys. The counters of the pins are
not set. -/
def start (level : κ → Bool) (unset : κ → UInt32) : InputSrv κ where
  pins key := ⟨level key, INPUT_DEBOUNCE_TICKS_HALF, 0, unset key, false⟩
  counter := 1
  work := .scan
  events := []

def eventsOf (key : κ) (events : List (InputEvent κ)) : List (InputType × BitVec 30) :=
  events.filterMap fun e => if e.key = key then some (e.type, e.sequenceCounter) else none

def presses (events : List (InputEvent κ)) : List (BitVec 30) :=
  events.filterMap fun e => if e.type = .press then some e.sequenceCounter else none

/-- One press of a key: a short one, or a long one with some repeats. -/
def repetition : BitVec 30 × Option Nat → List (InputType × BitVec 30)
  | (c, none) => [(.press, c), (.short, c), (.release, c)]
  | (c, some n) => (.press, c) :: (.long, c) :: (List.replicate n (.repeat, c) ++ [(.release, c)])

/-- The events of a key that is held at the start, before its first press. -/
def first (level : Bool) (unset : UInt32) : List (InputType × BitVec 30) :=
  if level then [(.short, BitVec.ofNat 30 unset.toNat), (.release, BitVec.ofNat 30 unset.toNat)]
  else []

@[simp] theorem eventsOf_append (key : κ) (events events' : List (InputEvent κ)) :
    eventsOf key (events ++ events') = eventsOf key events ++ eventsOf key events' :=
  List.filterMap_append

omit [DecidableEq κ] in
@[simp] theorem presses_append (events events' : List (InputEvent κ)) :
    presses (events ++ events') = presses events ++ presses events' := List.filterMap_append

end NikitaFirmware.Input
