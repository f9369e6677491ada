import Mathlib.Data.List.Induction

/-!
# Manchester code

`lib/toolbox/manchester_encoder.c` and `manchester_decoder.c`. A bit is sent as two halves, low and
high for one, high and low for zero. The encoder joins two halves of the same level; the decoder is
a table of four states, and has to find out where a bit begins.
-/

namespace NikitaFirmware.Toolbox

open List
namespace Manchester

inductive Result
  | shortLow
  | longLow
  | longHigh
  | shortHigh

/-- The result with the number `(first << 1) + second`. -/
def Result.ofBits : Bool → Bool → Result
  | false, false => shortLow
  | false, true => longLow
  | true, false => longHigh
  | true, true => shortHigh

inductive Step
  | first
  | next
  | again

/-- `ManchesterEncoderState` -/
structure Encoder where
  prevBit : Bool
  step : Step

def Encoder.reset (e : Encoder) : Encoder := { e with step := .first }

def firstHalf (bit : Bool) : Result := if bit then .shortLow else .shortHigh

/-- `manchester_encoder_advance`: whether the bit is done, the result and the state. -/
def Encoder.advance (e : Encoder) (currBit : Bool) : Bool × Result × Encoder :=
  match e.step with
  | .first => (true, firstHalf currBit, ⟨currBit, .next⟩)
  | .next =>
    if currBit = e.prevBit then
      (false, Result.ofBits e.prevBit currBit, { e with step := .again })
    else (true, Result.ofBits e.prevBit currBit, { e with prevBit := currBit })
  | .again => (true, firstHalf currBit, ⟨currBit, .next⟩)

def Encoder.finish (e : Encoder) : Result := Result.ofBits e.prevBit e.prevBit

/-- A bit is offered until it is done, which is twice at most. -/
def Encoder.send (e : Encoder) (bit : Bool) : List Result × Encoder :=
  let r := e.advance bit
  if r.1 then ([r.2.1], r.2.2)
  else ([r.2.1, (r.2.2.advance bit).2.1], (r.2.2.advance bit).2.2)

def Encoder.sendAll : Encoder → List Bool → List Result × Encoder
  | e, [] => ([], e)
  | e, bit :: bits => ((e.send bit).1 ++ ((e.send bit).2.sendAll bits).1,
      ((e.send bit).2.sendAll bits).2)

/-- What is sent for a sequence of bits, with the final flush. -/
def encode (e : Encoder) (bits : List Bool) : List Result :=
  (e.reset.sendAll bits).1 ++ [(e.reset.sendAll bits).2.finish]

inductive Event
  | shortLow
  | shortHigh
  | longLow
  | longHigh
  | reset
  deriving DecidableEq

def Event.value : Event → Nat
  | shortLow => 0
  | shortHigh => 2
  | longLow => 4
  | longHigh => 6
  | reset => 8

inductive State
  | start1
  | mid1
  | mid0
  | start0
  deriving DecidableEq

def State.ofBits (n : Nat) : State :=
  match n % 4 with
  | 0 => start1
  | 1 => mid1
  | 2 => mid0
  | _ => start0

def transitions : State → Nat
  | .start1 => 0b00000001
  | .mid1 => 0b10010001
  | .mid0 => 0b10011011
  | .start0 => 0b11111011

def resetState : State := .mid1

def State.resets (s : State) (event : Event) : Bool :=
  event == .reset || State.ofBits (transitions s >>> event.value) == s

def State.advance (s : State) (event : Event) : Option Bool × State :=
  if s.resets event then (none, resetState)
  else
    match State.ofBits (transitions s >>> event.value) with
    | .mid0 => (some false, .mid0)
    | .mid1 => (some true, .mid1)
    | t => (none, t)

/-- The bits that a sequence of events gives, and the state behind it. -/
def State.run : State → List Event → List Bool × State
  | s, [] => ([], s)
  | s, e :: es => ((s.advance e).1.toList ++ ((s.advance e).2.run es).1,
      ((s.advance e).2.run es).2)

def Result.event : Result → Event
  | shortLow => .shortLow
  | longLow => .longLow
  | longHigh => .longHigh
  | shortHigh => .shortHigh

/-- The decoder is reset, and gets what the encoder sends. -/
def decode (s : State) (results : List Result) : List Bool :=
  ((s.advance .reset).2.run (results.map Result.event)).1

@[simp] theorem advance_reset (s : State) : s.advance .reset = (none, resetState) := rfl

theorem advance_of_resets {s : State} {event : Event} (h : s.resets event) :
    s.advance event = (none, resetState) := by
  rw [State.advance, if_pos h]

theorem run_append (s : State) (es fs : List Event) :
    s.run (es ++ fs) = ((s.run es).1 ++ ((s.run es).2.run fs).1, ((s.run es).2.run fs).2) := by
  induction es generalizing s with
  | nil => simp [State.run]
  | cons e es ih => simp [State.run, ih]

theorem run_singleton (s : State) (e : Event) :
    s.run [e] = ((s.advance e).1.toList, (s.advance e).2) := by
  simp [State.run]

theorem sendAll_append (e : Encoder) (bits more : List Bool) : e.sendAll (bits ++ more) =
      ((e.sendAll bits).1 ++ ((e.sendAll bits).2.sendAll more).1,
        ((e.sendAll bits).2.sendAll more).2) := by
  induction bits generalizing e with
  | nil => simp [Encoder.sendAll]
  | cons bit bits ih => simp [Encoder.sendAll, ih]

def Encoder.behind (bit : Bool) : Encoder := ⟨bit, .next⟩

def State.mid (bit : Bool) : State := if bit then .mid1 else .mid0

/-- The decoder behind both halves of a bit. -/
def State.start (bit : Bool) : State := if bit then .start1 else .start0

def lastBit (bit : Bool) (bits : List Bool) : Bool := bits.getLastD bit

theorem lastBit_cons (last bit : Bool) (bits : List Bool) :
    lastBit last (bit :: bits) = lastBit bit bits := by
  rw [lastBit, lastBit, getLastD_cons]

def eventsBehind (bit : Bool) (bits : List Bool) : List Event :=
  ((Encoder.behind bit).sendAll bits).1.map Result.event

theorem send_reset (e : Encoder) (bit : Bool) :
    e.reset.send bit = ([firstHalf bit], Encoder.behind bit) := rfl

theorem send_behind (last bit : Bool) :
    ((Encoder.behind last).send bit).2 = Encoder.behind bit := by
  cases last <;> cases bit <;> rfl

theorem sendAll_behind (last : Bool) (bits : List Bool) :
    ((Encoder.behind last).sendAll bits).2 = Encoder.behind (lastBit last bits) := by
  induction bits generalizing last with
  | nil => rfl
  | cons bit bits ih =>
    rw [Encoder.sendAll, send_behind, ih, lastBit_cons]

theorem run_send (last bit : Bool) :
    (State.mid last).run (((Encoder.behind last).send bit).1.map Result.event) =
      ([bit], State.mid bit) := by
  cases last <;> cases bit <;> rfl

theorem run_eventsBehind (last : Bool) (bits : List Bool) :
    (State.mid last).run (eventsBehind last bits) = (bits, State.mid (lastBit last bits)) := by
  induction bits generalizing last with
  | nil => rfl
  | cons bit bits ih =>
    have hrest := ih bit
    rw [eventsBehind] at hrest
    rw [eventsBehind, Encoder.sendAll, map_append, run_append, run_send, send_behind, hrest,
      lastBit_cons]
    rfl

theorem run_flush (last : Bool) :
    (State.mid last).run [(Encoder.behind last).finish.event] = ([], State.start last) := by
  cases last <;> rfl

theorem run_flushed (last : Bool) (bits : List Bool) :
    ((State.mid last).run (((Encoder.behind last).sendAll bits).1.map Result.event ++
      [((Encoder.behind last).sendAll bits).2.finish.event])).1 = bits := by
  have hbits := run_eventsBehind last bits
  rw [eventsBehind] at hbits
  rw [sendAll_behind, run_append, hbits, run_flush]
  exact append_nil bits

/-- What the decoder finds as long as no one has been sent: each zero but the first looks like a
one to it, and so does the flush. -/
def unsynced : List Bool → List Bool
  | [] => [true]
  | false :: bits => true :: unsynced bits
  | true :: bits => bits

/-- What the decoder finds for a sequence of bits. The first bit is not found when it is a one, and
the first one ends the wrong phase that a leading zero causes. -/
def decoded : List Bool → List Bool
  | [] => []
  | true :: bits => bits
  | false :: bits => unsynced bits

theorem run_late (bits : List Bool) :
    (State.start1.run (((Encoder.behind false).sendAll bits).1.map Result.event ++
      [((Encoder.behind false).sendAll bits).2.finish.event])).1 = unsynced bits := by
  induction bits with
  | nil => rfl
  | cons bit bits ih =>
    rw [Encoder.sendAll, map_append, append_assoc, run_append, send_behind]
    cases bit with
    | false =>
      have hbit : State.start1.run (((Encoder.behind false).send false).1.map Result.event) =
          ([true], State.start1) := rfl
      rw [hbit, ih]
      rfl
    | true =>
      -- the change of level does not fit, and the reset puts the decoder in the middle of the one
      have hbit : State.start1.run (((Encoder.behind false).send true).1.map Result.event) =
          ([], State.mid true) := rfl
      rw [hbit, run_flushed]
      rfl

theorem decode_encode_cons (s : State) (e : Encoder) (bit : Bool) (bits : List Bool) :
    decode s (encode e (bit :: bits)) = decoded (bit :: bits) := by
  rw [decode, encode, Encoder.sendAll, send_reset, advance_reset, map_append, map_append,
    append_assoc, run_append]
  cases bit with
  | true =>
    have hfirst : resetState.run ([firstHalf true].map Result.event) = ([], State.mid true) := rfl
    rw [hfirst]
    exact run_flushed true bits
  | false =>
    have hfirst : resetState.run ([firstHalf false].map Result.event) = ([], State.start1) := rfl
    rw [hfirst]
    exact run_late bits

/-- The events are those of Manchester code for a one and `bits`, up to a half of a bit. -/
inductive Tracks : List Event → List Bool → State → Prop
  | mid (bits : List Bool) : Tracks (eventsBehind true bits) bits (State.mid (lastBit true bits))
  | start (bits : List Bool) :
      Tracks (eventsBehind true bits ++ [(Encoder.behind (lastBit true bits)).finish.event]) bits
        (State.start (lastBit true bits))

theorem eventsBehind_snoc (last : Bool) (bits : List Bool) (bit : Bool) :
    eventsBehind last (bits ++ [bit]) = eventsBehind last bits ++
      ((Encoder.behind (lastBit last bits)).send bit).1.map Result.event := by
  rw [eventsBehind, sendAll_append, sendAll_behind]
  simp [eventsBehind, Encoder.sendAll]

@[simp] theorem lastBit_snoc (last : Bool) (bits : List Bool) (bit : Bool) :
    lastBit last (bits ++ [bit]) = bit := by
  simp [lastBit, getLastD_eq_getLast?]

theorem mid_step {last : Bool} {event : Event} (h : (State.mid last).resets event = false) :
    (State.mid last).advance event = (none, State.start last) ∧
        event = (Encoder.behind last).finish.event ∨
      (State.mid last).advance event = (some (!last), State.mid (!last)) ∧
        [event] = ((Encoder.behind last).send (!last)).1.map Result.event := by
  cases last <;> cases event <;> first | exact absurd h (by decide) | decide

theorem start_step {last : Bool} {event : Event} (h : (State.start last).resets event = false) :
    (State.start last).advance event = (some last, State.mid last) ∧
      [(Encoder.behind last).finish.event, event] =
        ((Encoder.behind last).send last).1.map Result.event := by
  cases last <;> cases event <;> first | exact absurd h (by decide) | decide

theorem Tracks.advance {es : List Event} {bits : List Bool} {s : State} {event : Event}
    (h : Tracks es bits s) (hevent : s.resets event = false) :
    Tracks (es ++ [event]) (bits ++ (s.advance event).1.toList) (s.advance event).2 ∧
      ((s.advance event).1.isSome →
        es ++ [event] = eventsBehind true (bits ++ (s.advance event).1.toList)) := by
  cases h with
  | mid bits =>
    rcases mid_step hevent with ⟨hadvance, hhalf⟩ | ⟨hadvance, hsend⟩
    · rw [hadvance, hhalf]
      refine ⟨?_, fun h => absurd h Bool.false_ne_true⟩
      rw [Option.toList_none, append_nil]
      exact .start bits
    · have hnext := eventsBehind_snoc true bits (!lastBit true bits)
      have hmid := Tracks.mid (bits ++ [!lastBit true bits])
      rw [hnext, lastBit_snoc, ← hsend] at hmid
      rw [hadvance, Option.toList_some, hnext, ← hsend]
      exact ⟨hmid, fun _ => rfl⟩
  | start bits =>
    obtain ⟨hadvance, hsend⟩ := start_step hevent
    have hnext := eventsBehind_snoc true bits (lastBit true bits)
    have hmid := Tracks.mid (bits ++ [lastBit true bits])
    rw [hnext, lastBit_snoc, ← hsend] at hmid
    rw [hadvance, Option.toList_some, hnext, ← hsend, append_assoc, singleton_append]
    exact ⟨hmid, fun _ => rfl⟩

def SinceReset (s : State) (es : List Event) : Prop :=
  ∃ before r since bits, es = before ++ r :: since ∧ (s.run before).2.resets r ∧
    Tracks since bits (s.run es).2 ∧ (resetState.run since).1 = bits

/-- The events behind the last reset are Manchester code for a one, whose first half is not among
them, and the bits that are found since. -/
def ValidSinceReset (s : State) (es : List Event) : Prop :=
  ∃ (before : List Event) (r : Event) (since : List Event) (e : Encoder),
    es = before ++ r :: since ∧ (s.run before).2.resets r ∧
    Event.shortLow :: since =
      (e.reset.sendAll (true :: (resetState.run since).1)).1.map Result.event

theorem run_behind_reset {s : State} {before : List Event} {r : Event}
    (h : (s.run before).2.resets r) (since : List Event) :
    (s.run (before ++ r :: since)).2 = (resetState.run since).2 := by
  rw [run_append, State.run, advance_of_resets h]

theorem SinceReset.advance {s : State} {es : List Event} (h : SinceReset s es) (event : Event) :
    SinceReset s (es ++ [event]) ∧
      (((s.run es).2.advance event).1.isSome → ValidSinceReset s (es ++ [event])) := by
  have hlast : (s.run (es ++ [event])).2 = ((s.run es).2.advance event).2 := by
    rw [run_append, run_singleton]
  cases hreset : (s.run es).2.resets event with
  | true =>
    rw [advance_of_resets hreset]
    refine ⟨⟨es, event, [], [], rfl, hreset, ?_, rfl⟩, fun h => absurd h Bool.false_ne_true⟩
    rw [hlast, advance_of_resets hreset]
    exact .mid []
  | false =>
    obtain ⟨before, r, since, bits, rfl, hr, htracks, hbits⟩ := h
    obtain ⟨hnext, hfound⟩ := htracks.advance hreset
    have hrun : (resetState.run (since ++ [event])).1 =
        bits ++ ((s.run (before ++ r :: since)).2.advance event).1.toList := by
      rw [run_append, run_singleton, hbits, run_behind_reset hr]
    have hes : before ++ r :: since ++ [event] = before ++ r :: (since ++ [event]) := by simp
    refine ⟨⟨before, r, since ++ [event], _, hes, hr, ?_, hrun⟩, fun hsome => ?_⟩
    · rw [hlast]
      exact hnext
    · refine ⟨before, r, since ++ [event], Encoder.behind true, hes, hr, ?_⟩
      rw [hrun, hfound hsome]
      rfl

theorem sinceReset (s : State) (es : List Event) : SinceReset s (.reset :: es) := by
  induction es using List.reverseRecOn with
  | nil => exact ⟨[], .reset, [], [], rfl, rfl, .mid [], rfl⟩
  | append_singleton es event ih => exact (ih.advance event).1

/-- After a reset the decoder finds what the encoder sends but the first bit, or with leading zeros
the bits behind the first one and a one for each zero but the first. It finds a bit only where the
events since the last reset are Manchester code. -/
theorem decoder_finds (s : State) :
    (∀ (e : Encoder) (bits : List Bool), bits ≠ [] → decode s (encode e bits) = decoded bits) ∧
      ∀ (es : List Event) (event : Event), ((s.run (.reset :: es)).2.advance event).1.isSome →
          ValidSinceReset s (.reset :: es ++ [event]) := by
  refine ⟨fun e bits hbits => ?_, fun es event hsome => ?_⟩
  · obtain ⟨bit, bits, rfl⟩ := exists_cons_of_ne_nil hbits
    exact decode_encode_cons s e bit bits
  · exact ((sinceReset s es).advance event).2 hsome

theorem decoder_finds_example :
    decode .mid0 (encode ⟨true, .next⟩ [false, false, true, false]) = [true, false] ∧
      ValidSinceReset .start0 ([.reset] ++ [.longHigh]) :=
  ⟨(decoder_finds .mid0).1 ⟨true, .next⟩ [false, false, true, false] (by decide),
    (decoder_finds .start0).2 [] .longHigh (by decide)⟩

/-- There is no fixed prefix: a zero alone is found as a one, and a one alone is not found. -/
theorem single_zero_found_as_one :
    ¬ (∃ synced : List Bool, ∀ (s : State) (e : Encoder) (bits : List Bool), bits ≠ [] →
        decode s (encode e bits) = synced ++ bits) ∧
      ¬ ∃ n, ∀ (s : State) (e : Encoder) (bits : List Bool), bits ≠ [] →
        decode s (encode e bits) = bits.drop n := by
  constructor
  · rintro ⟨synced, h⟩
    have hone : [] = synced ++ [true] := h .mid1 ⟨true, .first⟩ [true] (by decide)
    simp at hone
  · rintro ⟨n, h⟩
    have hzero : [true] = [false].drop n := h .mid1 ⟨true, .first⟩ [false] (by decide)
    have hmem : true ∈ [false].drop n := hzero ▸ mem_singleton_self true
    exact absurd (mem_of_mem_drop hmem) (by decide)

end Manchester

end NikitaFirmware.Toolbox
