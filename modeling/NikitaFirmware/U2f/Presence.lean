import NikitaFirmware.Foundations.Machine
import NikitaFirmware.U2f.Message

/-!
# The scene of the U2F application

The main scene (`applications/main/u2f/scenes/u2f_scene_main.c`) shows the requests that the worker
notifies it of, and hands a press of OK back as the presence of the user. Notifications, presses and
the timer all send custom events, which the scene handles in turn, while the worker goes on.

`given`, `presses`, `voidBefore` and `granted` record what became of the presses and have no
counterpart in the firmware.
-/

namespace NikitaFirmware.U2f
open Foundations List

structure Press where
  id : Nat
  shown : Bool
  deriving DecidableEq

/-- `U2fCustomEvent`, as far as the scene handles it. -/
inductive CustomEvent where
  | connect | disconnect | dataError | register | auth | authSuccess | wink | timeout
  | confirm (press : Press)

inductive ViewMsg where
  | notConnected | idle | register | auth | success | error
  deriving DecidableEq

/-- The values of `event_cur` but for `U2fCustomEventNone`. -/
inductive Request where
  | register | auth

/-- `U2fApp` and the instance, with the custom events that are still to be handled. What needs
presence and is `granted` stands with its press and the number below which presses were before a
time-out or a disconnect. -/
structure App where
  u2f : U2fData
  queue : List CustomEvent
  eventCur : Option Request
  view : ViewMsg
  timer : Bool
  given : Press
  presses : Nat
  voidBefore : Nat
  granted : List (Press × Nat)

inductive AppEvent where
  | message (buf : Bytes) (len : Nat) (dataCheck : Bool)
  | setState (connected : Bool)
  | wink
  | press
  | timer
  | handle

/-- `u2f_scene_main_event_callback` -/
def NotifyEvent.custom : NotifyEvent → CustomEvent
  | .register => .register
  | .auth => .auth
  | .authSuccess => .authSuccess
  | .wink => .wink
  | .connect => .connect
  | .disconnect => .disconnect
  | .error => .dataError

/-- The answer says that the user is present. -/
def Response.present : Response → Bool
  | .register => true
  | .authenticate flags _ => flags == 1
  | _ => false

namespace App
variable (s : App)

def enter (u : U2fData) : App where
  u2f := { u with userPresent := false }
  queue := []
  eventCur := none
  view := .notConnected
  timer := false
  given := ⟨0, false⟩
  presses := 0
  voidBefore := 0
  granted := []

def shown : Bool := s.view == .register || s.view == .auth

def send (events : List CustomEvent) : App := { s with queue := s.queue ++ events }

/-- `u2f_scene_main_on_event`, for a request. -/
def onRequest (request : Request) : App :=
  let s := { s with timer := true }
  if s.eventCur = none then
    { s with
      eventCur := some request
      view := match request with
        | .register => .register
        | .auth => .auth }
  else s

def onEvent : CustomEvent → App
  | .connect => { s with timer := false, view := .idle }
  | .disconnect => { s with timer := false, eventCur := none, view := .notConnected }
  | .register => s.onRequest .register
  | .auth => s.onRequest .auth
  | .wink => s
  | .authSuccess => { s with timer := true, eventCur := none, view := .success }
  | .timeout => { s with eventCur := none, view := .idle }
  | .confirm press =>
    if s.eventCur ≠ none then { s with u2f := s.u2f.confirmUserPresent, given := press } else s
  | .dataError => { s with timer := false, view := .error }

/-- `u2f_msg_parse`, in the worker -/
def message (hmac : Bytes → Bytes → Bytes) (buf : Bytes) (len : Nat) (dataCheck : Bool) : App :=
  let parsed := s.u2f.msgParse hmac buf len dataCheck
  { s.send (parsed.notified.map NotifyEvent.custom) with
    u2f := parsed.u2f
    granted :=
      if parsed.response.present then s.granted ++ [(s.given, s.voidBefore)] else s.granted }

def setState (connected : Bool) : App :=
  { s.send [if connected then .connect else .disconnect] with
    u2f := s.u2f.setState
    voidBefore := if connected then s.voidBefore else s.presses }

end App

/-- The scene and the worker. The timer fires once, unless it is stopped before. -/
def app (hmac : Bytes → Bytes → Bytes) : Machine App AppEvent where
  step s
    | .message buf len dataCheck => some (s.message hmac buf len dataCheck)
    | .setState connected => some (s.setState connected)
    | .wink => some (s.send [.wink])
    | .press => some { s.send [.confirm ⟨s.presses, s.shown⟩] with presses := s.presses + 1 }
    | .timer =>
      if s.timer then some { s.send [.timeout] with timer := false, voidBefore := s.presses }
      else none
    | .handle =>
      match s.queue with
      | [] => none
      | ev :: queue => some ({ s with queue := queue }.onEvent ev)

variable {s s' : App} {hmac : Bytes → Bytes → Bytes}

def CustomEvent.press? : CustomEvent → Option Press
  | .confirm press => some press
  | _ => none

/-- Whether a request is current after the event, from whether one was before. -/
def CustomEvent.currentAfter (current : Bool) : CustomEvent → Bool
  | .register => true
  | .auth => true
  | .disconnect => false
  | .authSuccess => false
  | .timeout => false
  | _ => current

def currentAfter (current : Bool) (queue : List CustomEvent) : Bool :=
  queue.foldl CustomEvent.currentAfter current

def App.waiting (s : App) : List Press := s.queue.filterMap CustomEvent.press?

/-- A press, where no request is shown, comes when none is going to be current; the timer fires, and
the device is disconnected, when no press waits, and the timer when none is given either. -/
def Timely (s : App) : AppEvent → Prop
  | .press => s.shown = true ∨ currentAfter s.eventCur.isSome s.queue = false
  | .timer => s.u2f.userPresent = false ∧ s.waiting = []
  | .setState connected => connected = false → s.waiting = []
  | _ => True

instance decidableTimely (s : App) : (ev : AppEvent) → Decidable (Timely s ev)
  | .press => inferInstanceAs
      (Decidable (s.shown = true ∨ currentAfter s.eventCur.isSome s.queue = false))
  | .timer => inferInstanceAs (Decidable (s.u2f.userPresent = false ∧ s.waiting = []))
  | .setState connected => inferInstanceAs (Decidable (connected = false → s.waiting = []))
  | .message _ _ _ => isTrue trivial
  | .wink => isTrue trivial
  | .handle => isTrue trivial

/-- Every answer that says the user is present has a press of its own, made while a request was shown
and not followed by a time-out or a disconnect; what is given is such a press. -/
def Authorised (s : App) : Prop :=
  (s.granted.map fun g => g.1.id).Nodup ∧ (∀ g ∈ s.granted, g.1.shown = true ∧ g.2 ≤ g.1.id) ∧
    (s.u2f.userPresent = true → s.given.shown = true ∧ s.voidBefore ≤ s.given.id)

/-- The presses that are or may become granted, in order. -/
def App.ids (s : App) : List Nat :=
  s.granted.map (fun g => g.1.id) ++
    ((if s.u2f.userPresent then [s.given.id] else []) ++ s.waiting.map Press.id)

/-- A press that waits was made while a request was shown, or is going to be ignored. -/
def Honest : Bool → List CustomEvent → Prop
  | _, [] => True
  | current, ev :: queue =>
    (∀ press ∈ ev.press?, press.shown = true ∨ current = false) ∧
      Honest (ev.currentAfter current) queue

/-- The presses are in order, each of them shown and not void. -/
structure Spent (s : App) : Prop where
  order : s.ids.Pairwise (· < ·)
  bound : ∀ i ∈ s.ids, i < s.presses
  granted : ∀ g ∈ s.granted, g.1.shown = true ∧ g.2 ≤ g.1.id
  given : s.u2f.userPresent = true → s.given.shown = true ∧ s.voidBefore ≤ s.given.id
  waiting : ∀ press ∈ s.waiting, s.voidBefore ≤ press.id
  void : s.voidBefore ≤ s.presses
  honest : Honest s.eventCur.isSome s.queue

theorem Spent.authorised (h : Spent s) : Authorised s := by
  refine ⟨?_, h.granted, h.given⟩
  have hgranted : (s.granted.map fun g => g.1.id).Pairwise (· < ·) :=
    (pairwise_append.mp h.order).1
  exact hgranted.imp fun hlt => Nat.ne_of_lt hlt

/-- What a message does with the presence of the user. -/
inductive Presents (u : U2fData) : Parsed → Prop
  | spends (u' : U2fData) (response : Response) (notified : List NotifyEvent)
    (cntWrite : Option UInt32) (h : u.userPresent = true) (h' : u'.userPresent = false)
    (hresponse : response.present = true) : Presents u ⟨u', response, notified, cntWrite⟩
  | keeps (u' : U2fData) (response : Response) (notified : List NotifyEvent)
    (cntWrite : Option UInt32) (h : u'.userPresent = true → u.userPresent = true)
    (hresponse : response.present = false) : Presents u ⟨u', response, notified, cntWrite⟩

theorem msgParse_presents (u : U2fData) (buf : Bytes) (len : Nat) (dataCheck : Bool) :
    Presents u (u.msgParse hmac buf len dataCheck) := by
  unfold U2fData.msgParse
  split
  · exact .keeps _ _ _ _ id rfl
  split
  · exact .keeps _ _ _ _ id rfl
  split
  · unfold U2fData.register
    split
    · exact .keeps _ _ _ _ id rfl
    split
    · exact .keeps _ _ _ _ id rfl
    · next hpresent => exact .spends _ _ _ _ (eq_true_of_ne_false hpresent) rfl rfl
  split
  · unfold U2fData.authenticate
    split
    · exact .keeps _ _ _ _ id rfl
    split
    · exact .keeps _ _ _ _ id rfl
    simp only
    split
    · exact .keeps _ _ _ _ nofun rfl
    split
    · exact .keeps _ _ _ _ nofun rfl
    · cases hpresent : u.userPresent with
      | true => exact .spends _ _ _ _ hpresent rfl rfl
      | false => exact .keeps _ _ _ _ nofun rfl
  split <;> exact .keeps _ _ _ _ id rfl

theorem honest_append {current : Bool} {queue queue' : List CustomEvent} (h : Honest current queue)
    (h' : Honest (currentAfter current queue) queue') : Honest current (queue ++ queue') := by
  induction queue generalizing current with
  | nil => exact h'
  | cons ev queue ih => exact ⟨h.1, ih h.2 h'⟩

theorem honest_of_no_press {current : Bool} {queue : List CustomEvent}
    (h : ∀ ev ∈ queue, ev.press? = none) : Honest current queue := by
  induction queue generalizing current with
  | nil => trivial
  | cons ev queue ih =>
    rw [forall_mem_cons] at h
    refine ⟨fun press hpress => ?_, ih h.2⟩
    rw [h.1] at hpress
    cases hpress

theorem custom_press (ev : NotifyEvent) : ev.custom.press? = none := by
  cases ev <;> rfl

theorem filterMap_press_append {queue queue' : List CustomEvent}
    (h : ∀ ev ∈ queue', ev.press? = none) :
    (queue ++ queue').filterMap CustomEvent.press? = queue.filterMap CustomEvent.press? := by
  rw [filterMap_append, filterMap_eq_nil_iff.mpr h, append_nil]

theorem Spent.of_sublist (h : Spent s) (hids : s'.ids.Sublist s.ids) (hpresses : s'.presses = s.presses)
    (hgranted : ∀ g ∈ s'.granted, g.1.shown = true ∧ g.2 ≤ g.1.id)
    (hgiven : s'.u2f.userPresent = true → s'.given.shown = true ∧ s'.voidBefore ≤ s'.given.id)
    (hwaiting : ∀ press ∈ s'.waiting, s'.voidBefore ≤ press.id) (hvoid : s'.voidBefore ≤ s.presses)
    (hhonest : Honest s'.eventCur.isSome s'.queue) : Spent s' :=
  ⟨h.order.sublist hids, fun i hi => hpresses ▸ h.bound i (hids.subset hi), hgranted, hgiven,
    hwaiting, hpresses ▸ hvoid, hhonest⟩

theorem Spent.message (h : Spent s) (buf : Bytes) (len : Nat) (dataCheck : Bool) :
    Spent (s.message hmac buf len dataCheck) := by
  unfold App.message
  generalize hparsed : s.u2f.msgParse hmac buf len dataCheck = parsed
  have hpresents : Presents s.u2f parsed := hparsed ▸ msgParse_presents s.u2f buf len dataCheck
  have hcustom : ∀ ev ∈ parsed.notified.map NotifyEvent.custom, ev.press? = none := by
    intro ev hev
    obtain ⟨notified, -, rfl⟩ := mem_map.mp hev
    exact custom_press notified
  have hwaiting : (s.queue ++ parsed.notified.map NotifyEvent.custom).filterMap CustomEvent.press? =
      s.waiting := filterMap_press_append hcustom
  have hhonest : Honest s.eventCur.isSome (s.queue ++ parsed.notified.map NotifyEvent.custom) :=
    honest_append h.honest (honest_of_no_press hcustom)
  cases hpresents with
  | spends u' response notified cntWrite hpresent hspent hresponse =>
    obtain ⟨hshown, hvoid⟩ := h.given hpresent
    simp only [hresponse, if_true]
    refine h.of_sublist ?_ rfl ?_ (fun hp => by rw [hspent] at hp; cases hp) ?_ h.void hhonest
    · simp only [App.ids, App.waiting, App.send, hwaiting, hspent, hpresent, if_true,
        Bool.false_eq_true, if_false, map_append, nil_append, append_assoc]
      exact List.Sublist.refl _
    · intro g hg
      rcases mem_append.mp hg with hg | hg
      · exact h.granted g hg
      · rw [mem_singleton.mp hg]
        exact ⟨hshown, hvoid⟩
    · intro press hpress
      exact h.waiting press (hwaiting ▸ hpress)
  | keeps u' response notified cntWrite hkept hresponse =>
    simp only [hresponse, Bool.false_eq_true, if_false]
    refine h.of_sublist ?_ rfl h.granted (fun hp => h.given (hkept hp)) ?_ h.void hhonest
    · simp only [App.ids, App.waiting, App.send, hwaiting]
      refine List.Sublist.append (List.Sublist.refl _) (List.Sublist.append ?_ (List.Sublist.refl _))
      split
      · next hp =>
        rw [if_pos (hkept hp)]
      · exact nil_sublist _
    · intro press hpress
      exact h.waiting press (hwaiting ▸ hpress)

theorem Spent.send (h : Spent s) {events : List CustomEvent} {u : U2fData} {timer : Bool}
    {voidBefore : Nat} (hevents : ∀ ev ∈ events, ev.press? = none)
    (hkept : u.userPresent = true → s.u2f.userPresent = true ∧ voidBefore = s.voidBefore)
    (hvoid : voidBefore = s.voidBefore ∨ voidBefore = s.presses ∧ s.waiting = []) :
    Spent { s.send events with u2f := u, timer := timer, voidBefore := voidBefore } := by
  have hwaiting : (s.queue ++ events).filterMap CustomEvent.press? = s.waiting :=
    filterMap_press_append hevents
  have hle : voidBefore ≤ s.presses := by
    rcases hvoid with heq | ⟨heq, -⟩
    · exact heq ▸ h.void
    · exact heq.le
  refine h.of_sublist ?_ rfl h.granted (fun hp => ?_) (fun press hpress => ?_) hle
    (honest_append h.honest (honest_of_no_press hevents))
  · simp only [App.ids, App.waiting, App.send, hwaiting]
    refine List.Sublist.append (List.Sublist.refl _) (List.Sublist.append ?_ (List.Sublist.refl _))
    split
    · next hp =>
      rw [if_pos (hkept hp).1]
    · exact nil_sublist _
  · obtain ⟨hpresent, heq⟩ := hkept hp
    subst heq
    exact h.given hpresent
  · have hpress' : press ∈ s.waiting := hwaiting ▸ hpress
    rcases hvoid with heq | ⟨-, hnone⟩
    · subst heq
      exact h.waiting press hpress'
    · rw [hnone] at hpress'
      cases hpress'

theorem Spent.press (h : Spent s)
    (htimely : s.shown = true ∨ currentAfter s.eventCur.isSome s.queue = false) :
    Spent { s.send [.confirm ⟨s.presses, s.shown⟩] with presses := s.presses + 1 } := by
  have hids : ({ s.send [.confirm ⟨s.presses, s.shown⟩] with presses := s.presses + 1 } : App).ids =
      s.ids ++ [s.presses] := by
    simp only [App.ids, App.waiting, App.send, filterMap_append, map_append, append_assoc]
    rfl
  refine ⟨?_, fun i hi => ?_, h.granted, h.given, fun press hpress => ?_,
    Nat.le_succ_of_le h.void, ?_⟩
  · rw [hids]
    refine pairwise_append.mpr ⟨h.order, pairwise_singleton _ _, fun i hi j hj => ?_⟩
    rw [mem_singleton.mp hj]
    exact h.bound i hi
  · rw [hids] at hi
    rcases mem_append.mp hi with hi | hi
    · exact Nat.lt_succ_of_lt (h.bound i hi)
    · rw [mem_singleton.mp hi]
      exact Nat.lt_succ_self _
  · have hpress' : press ∈ s.waiting ++ [⟨s.presses, s.shown⟩] := by
      rw [App.waiting, App.send, filterMap_append] at hpress
      exact hpress
    rcases mem_append.mp hpress' with hpress' | hpress'
    · exact h.waiting press hpress'
    · rw [mem_singleton.mp hpress']
      exact h.void
  · refine honest_append h.honest ⟨fun press hpress => ?_, trivial⟩
    cases hpress
    exact htimely

theorem onEvent_of_no_press (s : App) {ev : CustomEvent} (hev : ev.press? = none) :
    ∃ eventCur view timer, s.onEvent ev =
        { s with eventCur := eventCur, view := view, timer := timer } ∧
      eventCur.isSome = ev.currentAfter s.eventCur.isSome := by
  cases ev with
  | confirm press => cases hev
  | register | auth =>
    unfold App.onEvent App.onRequest
    simp only
    split
    · exact ⟨_, _, _, rfl, rfl⟩
    · next hsome => exact ⟨_, _, _, rfl, Option.isSome_iff_ne_none.mpr hsome⟩
  | _ => exact ⟨_, _, _, rfl, rfl⟩

theorem Spent.handle (h : Spent s) {ev : CustomEvent} {queue : List CustomEvent}
    (hqueue : s.queue = ev :: queue) : Spent ({ s with queue := queue }.onEvent ev) := by
  have hhonest : Honest s.eventCur.isSome (ev :: queue) := hqueue ▸ h.honest
  cases hev : ev.press? with
  | none =>
    obtain ⟨eventCur, view, timer, hon, hcurrent⟩ :=
      onEvent_of_no_press { s with queue := queue } hev
    have hwaiting : queue.filterMap CustomEvent.press? = s.waiting := by
      rw [App.waiting, hqueue, filterMap_cons_none hev]
    rw [hon]
    refine h.of_sublist ?_ rfl h.granted h.given (fun press hpress => ?_) h.void ?_
    · simp only [App.ids, App.waiting, hwaiting]
      exact List.Sublist.refl _
    · exact h.waiting press (hwaiting ▸ hpress)
    · rw [hcurrent]
      exact hhonest.2
  | some press =>
    cases ev with
    | confirm press' =>
      cases hev
      have hwaiting : s.waiting = press :: queue.filterMap CustomEvent.press? := by
        rw [App.waiting, hqueue]
        rfl
      have hids : s.ids = s.granted.map (fun g => g.1.id) ++
          ((if s.u2f.userPresent then [s.given.id] else []) ++
            press.id :: (queue.filterMap CustomEvent.press?).map Press.id) := by
        rw [App.ids, hwaiting]
        rfl
      have hvoid : ∀ press' ∈ queue.filterMap CustomEvent.press?, s.voidBefore ≤ press'.id :=
        fun press' hpress' => h.waiting press' (hwaiting ▸ mem_cons_of_mem _ hpress')
      unfold App.onEvent
      simp only
      split
      · next hcurrent =>
        have hshown : press.shown = true := by
          rcases hhonest.1 press rfl with hshown | hnone
          · exact hshown
          · rw [Option.isSome_iff_ne_none.mpr hcurrent] at hnone
            cases hnone
        have hthis : s.voidBefore ≤ press.id := h.waiting press (hwaiting ▸ mem_cons_self)
        refine h.of_sublist ?_ rfl h.granted (fun _ => ⟨hshown, hthis⟩) hvoid h.void hhonest.2
        rw [hids]
        exact List.Sublist.append (List.Sublist.refl _) (sublist_append_right _ _)
      · refine h.of_sublist ?_ rfl h.granted h.given hvoid h.void hhonest.2
        rw [hids]
        exact List.Sublist.append (List.Sublist.refl _)
          (List.Sublist.append (List.Sublist.refl _) (sublist_cons_self _ _))
    | _ => cases hev

theorem Spent.step {ev : AppEvent} (h : Spent s) (htimely : Timely s ev)
    (hstep : (app hmac).step s ev = some s') : Spent s' := by
  cases ev with
  | message buf len dataCheck =>
    cases hstep
    exact h.message buf len dataCheck
  | setState connected =>
    cases hstep
    refine h.send ?_ nofun ?_
    · intro ev hev
      rw [mem_singleton.mp hev]
      cases connected <;> rfl
    · cases connected with
      | true => exact .inl rfl
      | false => exact .inr ⟨rfl, htimely rfl⟩
  | wink =>
    cases hstep
    refine h.send ?_ (fun hp => ⟨hp, rfl⟩) (.inl rfl)
    intro ev hev
    rw [mem_singleton.mp hev]
    rfl
  | press =>
    cases hstep
    exact h.press htimely
  | timer =>
    obtain ⟨-, hs'⟩ := Option.ite_none_right_eq_some.mp hstep
    cases hs'
    obtain ⟨habsent, hnone⟩ := htimely
    refine h.send ?_ (fun hp => ?_) (.inr ⟨rfl, hnone⟩)
    · intro ev hev
      rw [mem_singleton.mp hev]
      rfl
    · have hpresent : s.u2f.userPresent = true := hp
      rw [habsent] at hpresent
      cases hpresent
  | handle =>
    simp only [app] at hstep
    split at hstep
    · cases hstep
    · next ev queue hqueue =>
      cases hstep
      exact h.handle hqueue

theorem Spent.enter (u : U2fData) : Spent (App.enter u) where
  order := List.Pairwise.nil
  bound := nofun
  granted := nofun
  given := nofun
  waiting := nofun
  void := Nat.le_refl 0
  honest := trivial

/-- Where every press is timely, every answer that says the user is present has a press of its own. -/
theorem presence_authorised (hmac : Bytes → Bytes → Bytes) (u : U2fData) (evs : List AppEvent)
    (t : App) (htimely : (app hmac).Meets Timely (App.enter u) evs)
    (hrun : (app hmac).run (App.enter u) evs = some t) : Authorised t :=
  ((app hmac).run_invariant_of_meets (fun _ _ _ hs hok hstep => Spent.step hs hok hstep)
    (Spent.enter u) htimely hrun).authorised

def registration : AppEvent := .message [0, cmdRegister] 2 true

def readyInstance : U2fData := ⟨[], 0, true, false⟩

/-- OK is pressed while the request is shown, and the host asks again. -/
theorem pressed_authorised : ∃ t, (app fun _ _ => []).run (App.enter readyInstance)
        [registration, .handle, .press, .handle, registration] = some t ∧ Authorised t :=
  ⟨_, rfl, presence_authorised (fun _ _ => []) readyInstance
    [registration, .handle, .press, .handle, registration] _ (by decide) rfl⟩

/-- OK is pressed while the request is shown, and the request times out before the host asks again. -/
theorem pressed_too_early : ∃ t, (app fun _ _ => []).run (App.enter readyInstance)
        [registration, .handle, .press, .handle, .timer, .handle, registration] = some t ∧
      ¬ Authorised t := by
  refine ⟨_, rfl, fun h => ?_⟩
  have hgranted := h.2.1 (⟨0, true⟩, 1) (by decide)
  exact absurd hgranted.2 (by decide)

end NikitaFirmware.U2f
