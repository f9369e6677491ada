import Mathlib.Algebra.Group.Nat.Defs
import Mathlib.Data.List.Nodup
import NikitaFirmware.Input.Keys

/-!
# The order of key events

Each key goes through its presses one after the other. What a key has published is some whole
presses and a first part of the next one, which its pin and the thread of the service tell.
-/

namespace NikitaFirmware.Input

open Foundations List Option Function

/-- What the thread of the service is doing with a key. -/
inductive Phase where
  | apart
  | started
  | stopping

def Work.phase {κ : Type*} [DecidableEq κ] (key : κ) : Work κ → Phase
  | .scan => .apart
  | .started k => if k = key then .started else .apart
  | .stopping k => if k = key then .stopping else .apart

abbrev Published := List (InputType × BitVec 30)

/-- Some whole presses behind the events of a key that was held. -/
def Whole (before evs : Published) : Prop :=
  ∃ reps : List (BitVec 30 × Option Nat), evs = before ++ reps.flatMap repetition

def UnderWay (c : BitVec 30) (pressCounter : UInt8) (evs : Published) : Prop :=
  (pressCounter < INPUT_LONG_PRESS_COUNTS ∧ evs = [(.press, c)]) ∨
    (pressCounter = INPUT_LONG_PRESS_COUNTS ∧
      ∃ n, evs = (.press, c) :: (.long, c) :: replicate n (.repeat, c))

/-- The key is down, or its release waits for the timer. -/
def Down (pin : InputPinState) (phase : Phase) : Prop :=
  (pin.state = true ∧ phase = .apart) ∨ (pin.state = false ∧ phase = .stopping)

inductive KeyState (level : Bool) (unset : UInt32) : InputPinState → Phase → Published → Prop where
  | up {pin : InputPinState} {evs : Published} (hstate : pin.state = false)
      (hcount : pin.pressCounter = 0) (hrunning : pin.running = false)
      (hwhole : Whole (first level unset) evs) : KeyState level unset pin .apart evs
  | started {pin : InputPinState} {evs : Published} (hstate : pin.state = true)
      (hcount : pin.pressCounter < INPUT_LONG_PRESS_COUNTS)
      (hwhole : Whole (first level unset) evs) : KeyState level unset pin .started evs
  | down {pin : InputPinState} {phase : Phase} {evs evs' : Published} (hdown : Down pin phase)
      (hwhole : Whole (first level unset) evs)
      (hway : UnderWay pin.sequence pin.pressCounter evs') :
      KeyState level unset pin phase (evs ++ evs')
  | held {pin : InputPinState} {phase : Phase} (hdown : Down pin phase) (hlevel : level = true)
      (hcounter : pin.counter = unset) (hcount : pin.pressCounter = 0)
      (hrunning : pin.running = false) : KeyState level unset pin phase []

section Key
variable {level : Bool} {unset : UInt32} {pin : InputPinState} {phase : Phase} {evs : Published}

theorem Whole.concat {before : Published} (h : Whole before evs) (rep : BitVec 30 × Option Nat) :
    Whole before (evs ++ repetition rep) := by
  obtain ⟨reps, rfl⟩ := h
  exact ⟨reps ++ [rep], by simp⟩

theorem debounced_eq (pin : InputPinState) (level : Bool) :
    pin.debounced level = { pin with debounce := (pin.debounced level).debounce } := by
  unfold InputPinState.debounced
  split <;> split <;> rfl

theorem KeyState.debounce (h : KeyState level unset pin phase evs) (debounce : UInt8) :
    KeyState level unset { pin with debounce } phase evs := by
  cases h with
  | up hstate hcount hrunning hwhole => exact .up hstate hcount hrunning hwhole
  | started hstate hcount hwhole => exact .started hstate hcount hwhole
  | down hdown hwhole hway => exact .down hdown hwhole hway
  | held hdown hlevel hcounter hcount hrunning => exact .held hdown hlevel hcounter hcount hrunning

theorem KeyState.press (h : KeyState level unset pin .apart evs) (hstate : pin.state = false)
    (counter : UInt32) :
    KeyState level unset { pin with state := true, counter, running := true } .started evs := by
  have hnot : ¬ Down pin .apart := by simp [Down, hstate]
  cases h with
  | up _ hcount _ hwhole => exact .started rfl (hcount ▸ by decide) hwhole
  | down hdown => exact absurd hdown hnot
  | held hdown => exact absurd hdown hnot

theorem KeyState.release (h : KeyState level unset pin .apart evs) (hstate : pin.state = true) :
    KeyState level unset { pin with state := false } .stopping evs := by
  have hdown : Down { pin with state := false } .stopping := .inr ⟨rfl, rfl⟩
  cases h with
  | up hstate' => simp [hstate] at hstate'
  | down _ hwhole hway => exact .down hdown hwhole hway
  | held _ hlevel hcounter hcount hrunning => exact .held hdown hlevel hcounter hcount hrunning

theorem KeyState.pressed (h : KeyState level unset pin .started evs) :
    KeyState level unset pin .apart (evs ++ [(.press, pin.sequence)]) := by
  have hnot : ¬ Down pin .started := by simp [Down]
  cases h with
  | started hstate hcount hwhole => exact .down (.inl ⟨hstate, rfl⟩) hwhole (.inl ⟨hcount, rfl⟩)
  | down hdown => exact absurd hdown hnot
  | held hdown => exact absurd hdown hnot

def ending (pin : InputPinState) : Published :=
  (if pin.pressCounter < INPUT_LONG_PRESS_COUNTS then [(.short, pin.sequence)] else []) ++
    [(.release, pin.sequence)]

theorem KeyState.stopped (h : KeyState level unset pin .stopping evs) :
    KeyState level unset { pin with pressCounter := 0, running := false } .apart
      (evs ++ ending pin) := by
  cases h with
  | down hdown hwhole hway =>
    obtain ⟨-, hphase⟩ | ⟨hstate, -⟩ := hdown
    · cases hphase
    refine .up hstate rfl rfl ?_
    obtain ⟨hbrief, rfl⟩ | ⟨hcount, n, rfl⟩ := hway
    · have hwhole' := hwhole.concat (pin.sequence, none)
      simpa [ending, hbrief, repetition] using hwhole'
    · have hnot : ¬ pin.pressCounter < INPUT_LONG_PRESS_COUNTS := by simp [hcount]
      have hwhole' := hwhole.concat (pin.sequence, some n)
      simpa [ending, hnot, repetition] using hwhole'
  | held hdown hlevel hcounter hcount hrunning =>
    obtain ⟨-, hphase⟩ | ⟨hstate, -⟩ := hdown
    · cases hphase
    refine .up hstate rfl rfl ⟨[], ?_⟩
    have hbrief : pin.pressCounter < INPUT_LONG_PRESS_COUNTS := hcount ▸ by decide
    simp [ending, hbrief, first, hlevel, InputPinState.sequence, hcounter]

def fired (pin : InputPinState) : Published :=
  (pin.pressTimerCallback.2.map fun type => (type, pin.sequence)).toList

theorem fire_first (h : pin.pressCounter = 0) :
    pin.pressTimerCallback.1 = { pin with pressCounter := 1 } ∧ fired pin = [] := by
  obtain ⟨state, debounce, pressCounter, counter, running⟩ := pin
  subst h
  exact ⟨rfl, rfl⟩

theorem fire_second (h : pin.pressCounter = 1) :
    pin.pressTimerCallback.1 = { pin with pressCounter := 2 } ∧
      fired pin = [(.long, pin.sequence)] := by
  obtain ⟨state, debounce, pressCounter, counter, running⟩ := pin
  subst h
  exact ⟨rfl, rfl⟩

theorem fire_later (h : pin.pressCounter = 2) :
    pin.pressTimerCallback.1 = pin ∧ fired pin = [(.repeat, pin.sequence)] := by
  have hsame : { pin with pressCounter := pin.pressCounter + 1 - 1 } = pin := by
    rw [UInt8.add_sub_cancel]
  have hcallback : pin.pressTimerCallback = (pin, some .repeat) := by
    rw [InputPinState.pressTimerCallback, if_neg (by rw [h]; decide), if_pos (by rw [h]; decide),
      hsame]
  rw [fired, hcallback]
  exact ⟨rfl, rfl⟩

theorem callback_counter (pin : InputPinState) :
    pin.pressTimerCallback.1.counter = pin.counter := by
  unfold InputPinState.pressTimerCallback
  dsimp only
  split_ifs <;> rfl

theorem fired_ne_press (pin : InputPinState) : ∀ e ∈ fired pin, e.1 ≠ .press := by
  unfold fired InputPinState.pressTimerCallback
  dsimp only
  split_ifs <;> simp

theorem ending_ne_press (pin : InputPinState) : ∀ e ∈ ending pin, e.1 ≠ .press := by
  unfold ending
  split <;> simp

theorem KeyState.expire (h : KeyState level unset pin phase evs) (hrunning : pin.running = true)
    (hprompt : phase = .started → pin.pressCounter = 0) :
    KeyState level unset pin.pressTimerCallback.1 phase (evs ++ fired pin) := by
  cases h with
  | up _ _ hstopped => simp [hrunning] at hstopped
  | held _ _ _ _ hstopped => simp [hrunning] at hstopped
  | started hstate hcount hwhole =>
    obtain ⟨hpin, hfired⟩ := fire_first (hprompt rfl)
    rw [hpin, hfired, append_nil]
    exact .started hstate (show (1 : UInt8) < INPUT_LONG_PRESS_COUNTS by decide) hwhole
  | down hdown hwhole hway =>
    rw [append_assoc]
    obtain ⟨hbrief, rfl⟩ | ⟨hcount, n, rfl⟩ := hway
    · obtain hzero | hone : pin.pressCounter = 0 ∨ pin.pressCounter = 1 := by
        have hlt : pin.pressCounter.toNat < 2 := UInt8.lt_iff_toNat_lt.mp hbrief
        rw [← UInt8.toNat_inj, ← UInt8.toNat_inj]
        simp
        omega
      · obtain ⟨hpin, hfired⟩ := fire_first hzero
        rw [hpin, hfired]
        exact .down hdown hwhole (.inl ⟨show (1 : UInt8) < INPUT_LONG_PRESS_COUNTS by decide, rfl⟩)
      · obtain ⟨hpin, hfired⟩ := fire_second hone
        rw [hpin, hfired]
        exact .down hdown hwhole (.inr ⟨rfl, 0, rfl⟩)
    · obtain ⟨hpin, hfired⟩ := fire_later hcount
      rw [hpin, hfired]
      refine .down hdown hwhole (.inr ⟨hcount, n + 1, ?_⟩)
      simp [replicate_succ']

theorem KeyState.whole (h : KeyState level unset pin phase evs) :
    ∃ reps : List (BitVec 30 × Option Nat),
      evs <+: first level unset ++ reps.flatMap repetition := by
  cases h with
  | up _ _ _ hwhole | started _ _ hwhole =>
    obtain ⟨reps, rfl⟩ := hwhole
    exact ⟨reps, prefix_rfl⟩
  | down _ hwhole hway =>
    obtain ⟨reps, rfl⟩ := hwhole
    obtain ⟨-, rfl⟩ | ⟨-, n, rfl⟩ := hway
    · exact ⟨reps ++ [(pin.sequence, none)], by simp [repetition]⟩
    · exact ⟨reps ++ [(pin.sequence, some n)], by simp [repetition]⟩
  | held => exact ⟨[], nil_prefix⟩

end Key

variable {κ : Type*} [DecidableEq κ] {level : κ → Bool} {unset : κ → UInt32} {s s' : InputSrv κ}

theorem eventsOf_publish (s : InputSrv κ) (key k : κ) (type : InputType) :
    eventsOf key (s.publish k type).events =
      eventsOf key s.events ++ if k = key then [(type, (s.pins k).sequence)] else [] := by
  rw [InputSrv.publish, eventsOf_append]
  by_cases hk : k = key <;> simp [eventsOf, hk]

def eventsFor (key : κ) (evs : Published) : List (InputEvent κ) :=
  evs.map fun e => ⟨key, e.1, e.2⟩

theorem eventsOf_eventsFor (key k : κ) (evs : Published) :
    eventsOf key (eventsFor k evs) = if k = key then evs else [] := by
  induction evs with
  | nil => simp [eventsFor, eventsOf]
  | cons e evs ih =>
    rw [eventsFor, map_cons, eventsOf, filterMap_cons]
    rw [eventsFor, eventsOf] at ih
    by_cases hk : k = key <;> simp_all

omit [DecidableEq κ] in
theorem presses_eventsFor {key : κ} {evs : Published} (h : ∀ e ∈ evs, e.1 ≠ .press) :
    presses (eventsFor key evs) = [] := by
  simpa [presses, eventsFor] using h

theorem finishStop_eq (s : InputSrv κ) (key : κ) : s.finishStop key = { s with
      pins := update s.pins key { s.pins key with pressCounter := 0, running := false }
      events := s.events ++ eventsFor key (ending (s.pins key))
      work := .scan } := by
  unfold InputSrv.finishStop
  by_cases hbrief : (s.pins key).pressCounter < INPUT_LONG_PRESS_COUNTS <;>
    simp [hbrief, InputSrv.publish, InputSrv.setPin, ending, eventsFor, InputPinState.sequence]

theorem expire_eq (s : InputSrv κ) (key : κ) : s.expire key = { s with
      pins := update s.pins key (s.pins key).pressTimerCallback.1
      events := s.events ++ eventsFor key (fired (s.pins key)) } := by
  have hseq : (s.pins key).pressTimerCallback.1.sequence = (s.pins key).sequence := by
    rw [InputPinState.sequence, callback_counter, InputPinState.sequence]
  rw [InputSrv.expire]
  cases htype : (s.pins key).pressTimerCallback.2 <;>
    simp [htype, fired, InputSrv.publish, InputSrv.setPin, eventsFor, hseq]

def Counts (s : InputSrv κ) (n : Nat) : Work κ → Prop
  | .started key =>
    (s.pins key).counter = UInt32.ofNat (n + 1) ∧ s.counter = UInt32.ofNat (n + 1 + 1)
  | _ => s.counter = UInt32.ofNat (n + 1)

/-- The keys are in their states, and the presses are numbered from one on. -/
structure Sound (level : κ → Bool) (unset : κ → UInt32) (s : InputSrv κ) : Prop where
  keys : ∀ key, KeyState (level key) (unset key) (s.pins key) (s.work.phase key)
    (eventsOf key s.events)
  counts : ∃ n, Counts s n s.work ∧
    presses s.events = (range n).map fun i => BitVec.ofNat 30 (i + 1)

/-- No press timer expires twice before its press is published. -/
def Prompt (s : InputSrv κ) : Action κ → Prop
  | .expire key => s.work.phase key = .started → (s.pins key).pressCounter = 0
  | _ => True

theorem sound_start : Sound level unset (start level unset) where
  keys key := by
    cases hlevel : level key with
    | false => exact .up hlevel rfl rfl ⟨[], rfl⟩
    | true => exact .held (.inl ⟨hlevel, rfl⟩) rfl rfl rfl rfl
  counts := ⟨0, rfl, rfl⟩

theorem Sound.keys_of (h : Sound level unset s) (key : κ)
    (hkey : KeyState (level key) (unset key) (s'.pins key) (s'.work.phase key)
      (eventsOf key s'.events))
    (hothers : ∀ k, k ≠ key → s'.pins k = s.pins k ∧ s'.work.phase k = s.work.phase k ∧
      eventsOf k s'.events = eventsOf k s.events) (k : κ) :
    KeyState (level k) (unset k) (s'.pins k) (s'.work.phase k) (eventsOf k s'.events) := by
  by_cases hk : k = key
  · exact hk ▸ hkey
  · obtain ⟨hpin, hphase, hevents⟩ := hothers k hk
    rw [hpin, hphase, hevents]
    exact h.keys k

theorem Sound.sample (h : Sound level unset s) (hwork : s.work = .scan) (key : κ) (bit : Bool) :
    Sound level unset (s.sample key bit) := by
  have hkey := (h.keys key).debounce ((s.pins key).debounced bit).debounce
  rw [← debounced_eq, hwork] at hkey
  obtain ⟨n, hcount, hpresses⟩ := h.counts
  rw [hwork] at hcount
  have hothers : ∀ k, k ≠ key → ∀ pin : InputPinState, update s.pins key pin k = s.pins k :=
    fun k hk pin => update_of_ne hk pin s.pins
  -- a key whose published state stays
  have hquiet : Sound level unset (s.setPin key ((s.pins key).debounced bit)) := by
    refine ⟨h.keys_of key ?_ fun k hk => ⟨hothers k hk _, rfl, rfl⟩, n, ?_, hpresses⟩
    · simpa [InputSrv.setPin, hwork] using hkey
    · simpa [InputSrv.setPin, hwork, Counts] using hcount
  rw [InputSrv.sample]
  split
  · exact hquiet
  split
  · next hchange =>
    cases bit with
    | true =>
      have hstate := eq_false_of_ne_true hchange
      refine ⟨h.keys_of key ?_ fun k hk => ⟨hothers k hk _, ?_, rfl⟩, n, ?_, hpresses⟩
      · simpa [InputSrv.setPin, Work.phase] using hkey.press hstate s.counter
      · simp [hwork, Work.phase, Ne.symm hk]
      · -- the press takes the counter, and the next one is up
        have hcounter : s.counter = UInt32.ofNat (n + 1) := hcount
        have hnext : s.counter + 1 = UInt32.ofNat (n + 1 + 1) := by
          rw [hcounter, UInt32.ofNat_add (n + 1) 1]
          rfl
        exact ⟨by simpa [InputSrv.setPin] using hcounter, hnext⟩
    | false =>
      have hstate := eq_true_of_ne_false hchange
      refine ⟨h.keys_of key ?_ fun k hk => ⟨hothers k hk _, ?_, rfl⟩, n, hcount, hpresses⟩
      · simpa [InputSrv.setPin, Work.phase] using hkey.release hstate
      · simp [hwork, Work.phase, Ne.symm hk]
  · exact hquiet

theorem Sound.pressed {key : κ} (h : Sound level unset s) (hwork : s.work = .started key) :
    Sound level unset { s.publish key .press with work := .scan } := by
  have hkey := h.keys key
  obtain ⟨n, hcount, hpresses⟩ := h.counts
  rw [hwork] at hkey hcount
  obtain ⟨hpin, hcounter⟩ := hcount
  refine ⟨h.keys_of key ?_ fun k hk => ⟨rfl, ?_, ?_⟩, n + 1, hcounter, ?_⟩
  · rw [Work.phase, if_pos rfl] at hkey
    rw [eventsOf_publish, if_pos rfl]
    exact hkey.pressed
  · simp [hwork, Work.phase, Ne.symm hk]
  · rw [eventsOf_publish, if_neg (Ne.symm hk), append_nil]
  · have hseq : (s.pins key).sequence = BitVec.ofNat 30 (n + 1) := by
      apply BitVec.eq_of_toNat_eq
      simp [InputPinState.sequence, hpin]
    simp only [InputSrv.publish, presses_append, hpresses, range_succ, map_append]
    simp [presses, hseq]

theorem Sound.stopped {key : κ} (h : Sound level unset s) (hwork : s.work = .stopping key) :
    Sound level unset (s.finishStop key) := by
  have hkey := h.keys key
  obtain ⟨n, hcount, hpresses⟩ := h.counts
  rw [hwork] at hkey hcount
  rw [Work.phase, if_pos rfl] at hkey
  rw [finishStop_eq]
  refine ⟨h.keys_of key ?_ fun k hk => ⟨update_of_ne hk _ _, ?_, ?_⟩, n, hcount, ?_⟩
  · simpa [eventsOf_eventsFor, Work.phase] using hkey.stopped
  · simp [hwork, Work.phase, Ne.symm hk]
  · rw [eventsOf_append, eventsOf_eventsFor, if_neg (Ne.symm hk), append_nil]
  · rw [presses_append, presses_eventsFor (ending_ne_press _), append_nil, hpresses]

theorem Sound.expire {key : κ} (h : Sound level unset s) (hrunning : (s.pins key).running = true)
    (hprompt : Prompt s (.expire key)) : Sound level unset (s.expire key) := by
  have hkey := (h.keys key).expire hrunning hprompt
  obtain ⟨n, hcount, hpresses⟩ := h.counts
  rw [expire_eq]
  refine ⟨h.keys_of key ?_ fun k hk => ⟨update_of_ne hk _ _, rfl, ?_⟩, n, ?_, ?_⟩
  · simpa [eventsOf_eventsFor] using hkey
  · rw [eventsOf_append, eventsOf_eventsFor, if_neg (Ne.symm hk), append_nil]
  · -- the timer leaves the counters
    have hcounter : ∀ k, (update s.pins key (s.pins key).pressTimerCallback.1 k).counter =
        (s.pins k).counter := by
      intro k
      by_cases hk : k = key
      · rw [hk, update_self, callback_counter]
      · rw [update_of_ne hk]
    cases hwork : s.work <;> simpa [hwork, Counts, hcounter] using hcount
  · rw [presses_append, presses_eventsFor (fired_ne_press _), append_nil, hpresses]

theorem Sound.step {a : Action κ} (h : Sound level unset s) (hprompt : Prompt s a)
    (hstep : machine.step s a = some s') : Sound level unset s' := by
  cases a with
  | sample key bit =>
    cases hwork : s.work with
    | scan => exact some.inj (by simpa [machine, hwork] using hstep) ▸ h.sample hwork key bit
    | started k | stopping k => simp [machine, hwork] at hstep
  | pressed =>
    cases hwork : s.work with
    | started key => exact some.inj (by simpa [machine, hwork] using hstep) ▸ h.pressed hwork
    | scan | stopping k => simp [machine, hwork] at hstep
  | stopped =>
    cases hwork : s.work with
    | stopping key => exact some.inj (by simpa [machine, hwork] using hstep) ▸ h.stopped hwork
    | scan | started k => simp [machine, hwork] at hstep
  | expire key =>
    by_cases hrunning : (s.pins key).running
    · exact some.inj (by simpa [machine, hrunning] using hstep) ▸ h.expire hrunning hprompt
    · simp [machine, hrunning] at hstep

theorem sound_run {as : List (Action κ)} (hrun : machine.run (start level unset) as = some s)
    (hprompt : machine.Meets Prompt (start level unset) as) : Sound level unset s :=
  machine.run_invariant_of_meets (fun _ _ _ h ha hstep => h.step ha hstep) sound_start hprompt hrun

theorem nodup_numbers (n : Nat) :
    ((range n).map fun i => BitVec.ofNat 30 (i + 1)).Nodup ↔ n ≤ 2 ^ 30 := by
  constructor
  · intro h
    by_contra hlt
    have hzero := inj_on_of_nodup_map h (mem_range.mpr (show 0 < n by omega))
      (mem_range.mpr (show 2 ^ 30 < n by omega)) (by decide)
    omega
  · intro h
    refine List.Nodup.map_on ?_ nodup_range
    intro i hi j hj heq
    have hi' := mem_range.mp hi
    have hj' := mem_range.mp hj
    have hnat := congrArg BitVec.toNat heq
    simp only [BitVec.toNat_ofNat] at hnat
    omega

/-- In every run in which no press timer expires twice before its press is published, the events of
a key are whole presses, the first and the last of which may be cut; and the presses of all keys are
numbered from one on. -/
theorem key_events {as : List (Action κ)} (hrun : machine.run (start level unset) as = some s)
    (hprompt : machine.Meets Prompt (start level unset) as) :
    (∀ key, ∃ reps : List (BitVec 30 × Option Nat),
      eventsOf key s.events <+: first (level key) (unset key) ++ reps.flatMap repetition) ∧
    (∃ n, presses s.events = (range n).map fun i => BitVec.ofNat 30 (i + 1)) ∧
    ((presses s.events).Nodup ↔ (presses s.events).length ≤ 2 ^ 30) := by
  have h := sound_run hrun hprompt
  obtain ⟨n, -, hpresses⟩ := h.counts
  refine ⟨fun key => (h.keys key).whole, ⟨n, hpresses⟩, ?_⟩
  rw [hpresses, nodup_numbers, length_map, length_range]

def longPress : List (Action Unit) :=
  [.sample () true, .sample () true, .pressed, .expire (), .expire (), .expire ()] ++
    replicate 4 (.sample () false) ++ [.stopped]

theorem key_events_longPress :
    ∃ s, machine.run (start (fun _ => false) fun _ => 0) longPress = some s ∧
      ∃ reps : List (BitVec 30 × Option Nat), eventsOf () s.events <+: reps.flatMap repetition := by
  have hsome : (machine.run (start (fun _ => false) fun _ => 0) longPress).isSome := by decide
  obtain ⟨s, hs⟩ := isSome_iff_exists.mp hsome
  refine ⟨s, hs, (key_events hs ?_).1 ()⟩
  refine ⟨trivial, trivial, trivial, ?_, ?_, ?_, ?_⟩
  · exact fun h => by cases h
  · exact fun h => by cases h
  · exact fun h => by cases h
  · exact ⟨trivial, trivial, trivial, trivial, trivial, trivial⟩

theorem head_of_prefix {evs : Published} {reps : List (BitVec 30 × Option Nat)}
    (h : evs <+: reps.flatMap repetition) : ∀ e ∈ evs.head?, e.1 = .press := by
  intro e he
  obtain ⟨rest, hrest⟩ := h
  cases evs with
  | nil => cases he
  | cons e' evs =>
    obtain rfl := some.inj he
    cases reps with
    | nil => cases hrest
    | cons rep reps =>
      obtain ⟨c, _ | n⟩ := rep <;> exact congrArg Prod.fst (cons.inj hrest).1

theorem key_events_misordered :
    (∃ as s, machine.run (start (fun _ : Unit => true) fun _ => 0) as = some s ∧
      ¬ ∃ reps : List (BitVec 30 × Option Nat), eventsOf () s.events <+: reps.flatMap repetition) ∧
    ∃ as s, machine.run (start (fun _ : Unit => false) fun _ => 0) as = some s ∧
      ¬ ∃ reps : List (BitVec 30 × Option Nat), eventsOf () s.events <+: reps.flatMap repetition := by
  have hheld : (machine.run (start (fun _ : Unit => true) fun _ => 0)
      [.sample () false, .sample () false, .stopped]).map (fun s => eventsOf () s.events) =
        some [(.short, 0), (.release, 0)] := by decide
  have hearly : (machine.run (start (fun _ : Unit => false) fun _ => 0)
      [.sample () true, .sample () true, .expire (), .expire ()]).map
        (fun s => eventsOf () s.events) = some [(.long, 1)] := by decide
  constructor
  · obtain ⟨s, hs, hevents⟩ := map_eq_some_iff.mp hheld
    refine ⟨_, s, hs, fun ⟨reps, h⟩ => ?_⟩
    cases head_of_prefix h _ (by rw [hevents]; rfl)
  · obtain ⟨s, hs, hevents⟩ := map_eq_some_iff.mp hearly
    refine ⟨_, s, hs, fun ⟨reps, h⟩ => ?_⟩
    cases head_of_prefix h _ (by rw [hevents]; rfl)

end NikitaFirmware.Input
