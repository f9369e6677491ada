import NikitaFirmware.Buddy.Mailbox
import NikitaFirmware.Buddy.QuickCommands

/-!
# The Buddy's screens and timers

Everything the Buddy does is a callback on the GUI thread: a menu item, a line from the
keyboard, Back, OK on the face, and the ticks of its three timers, which may still be in the
queue when their timer has been stopped. The files on the card may change between any two
callbacks; a failed access is a file that is not there while it is tried.

While a prompt is awaited the Buddy polls, unless Nikita speaks first: `nb_show_say` takes the
screen over and stops the poll.
-/

namespace NikitaFirmware.Buddy
open Foundations

inductive NbView
  | menu
  | text
  | result
  | face
  deriving DecidableEq

inductive NikitaFaceMood
  | idle
  | thinking
  | talking
  deriving DecidableEq

structure NikitaBuddy where
  currentView : NbView
  intro : Bool
  answered : Bool
  hintShown : Bool
  pollTimer : Bool
  animTimer : Bool
  sayTimer : Bool
  reqId : UInt32
  nextId : UInt32
  waitedS : UInt32
  lastSayId : UInt32
  prompt : Bytes
  reply : Bytes
  faceText : Bytes
  faceMood : NikitaFaceMood
  quickPrompts : List Bytes
  /-- `NB_REQ_PATH`, `NB_RES_PATH` and `NB_SAY_PATH` on the card -/
  req : Option Bytes
  res : Option Bytes
  say : Option Bytes
  running : Bool
  /-- A prompt was sent, its reply has not been taken, and the user has not left the screen. -/
  awaiting : Bool
  deriving DecidableEq

def pentestPrompt : Bytes := ascii <|
  "Run an authorized security sweep of everything you are connected to right " ++
  "now -- my Flipper's radios (sub-GHz, NFC/RFID, IR, BadUSB), this " ++
  "computer's network, and any BLE in range. Find the weaknesses I can't " ++
  "see, verify them safely, and report each one with where it is, its " ++
  "severity, the evidence, and what an attacker could do. Do not fix " ++
  "anything -- just show me the truth and I'll decide."

def noAnswerHint : Bytes := ascii <|
  "No answer yet. Connect the iPhone or qFlipper with Nikita on -- " ++
  "your question is saved and I'll answer the moment one is there."

def shownKey : Bytes := ascii "\"shown\""
def moodKey : Bytes := ascii "\"mood\""

/-- What `nb_check_say` leaves in place of a line it has shown. -/
def shownJson (id : UInt32) : Bytes :=
  ascii "\x7b\"id\":" ++ decimal id.toNat ++ ascii ",\"shown\":1\x7d"

/-- The C string that `nb_read_file` leaves in a buffer of `NB_REPLY_MAX` bytes. -/
def replyBuf (content : Bytes) : Bytes := cstr (content.take (replyMax - 1))

namespace NikitaBuddy

def nbSwitch (app : NikitaBuddy) (view : NbView) : NikitaBuddy := { app with currentView := view }

def nbSendPrompt (app : NikitaBuddy) (text : Bytes) (timestamp : UInt32) : NikitaBuddy :=
  { app with
    prompt := text.take (promptMax - 1), reqId := app.nextId + 1, nextId := app.nextId + 1,
    waitedS := 0, answered := false, hintShown := false, reply := [],
    req := some (requestJson (app.nextId + 1) text timestamp), res := some noReply,
    awaiting := true }

def nbOpenTextInput (app : NikitaBuddy) : NikitaBuddy := { app with prompt := [] }.nbSwitch .text

def nbFaceOk (app : NikitaBuddy) : NikitaBuddy :=
  if app.intro then { app with intro := false, animTimer := false }.nbSwitch .menu
  else app.nbOpenTextInput

def nbBeginWait (app : NikitaBuddy) : NikitaBuddy :=
  { app with
    intro := false, faceText := [], faceMood := .thinking, currentView := .face,
    pollTimer := true, animTimer := true }

def nbShowSay (app : NikitaBuddy) (text : Bytes) (mood : NikitaFaceMood) : NikitaBuddy :=
  { app with
    intro := false, answered := true, pollTimer := false, faceText := text, faceMood := mood,
    currentView := .face, animTimer := true }

/-- The mood that `nb_check_say` reads, with room for 15 bytes of it. -/
def sayMood (buf : Bytes) : NikitaFaceMood :=
  match nbJsonValue buf moodKey 16 with
  | none => .talking
  | some m =>
    if m = ascii "idle" then .idle else if m = ascii "thinking" then .thinking else .talking

def nbSayLine (app : NikitaBuddy) (buf : Bytes) (id : UInt32) : NikitaBuddy :=
  match nbJsonText buf replyMax with
  | none => app
  | some text =>
    if text = [] then app
    else if app.currentView = .text then app
    else { app with lastSayId := id, say := some (shownJson id) }.nbShowSay text (sayMood buf)

def nbCheckSay (app : NikitaBuddy) : NikitaBuddy :=
  match app.say with
  | none => app
  | some content =>
    let buf := replyBuf content
    match nbJsonUint buf idKey with
    | none => app
    | some id =>
      if id = 0 then app
      else if id = app.lastSayId then app
      else if (nbJsonUint buf shownKey).getD 0 ≠ 0 then { app with lastSayId := id }
      else app.nbSayLine buf id

/-- The part of `nb_custom_event_cb` that finds no answer. -/
def nbHint (app : NikitaBuddy) : NikitaBuddy :=
  if !app.hintShown && hintAfterS ≤ app.waitedS then
    { app with hintShown := true, faceText := noAnswerHint, faceMood := .talking }
  else app

/-- `nb_custom_event_cb` on `NbCustomPoll`. -/
def nbPoll (app : NikitaBuddy) : NikitaBuddy :=
  if app.answered then app
  else
    let app := { app with waitedS := app.waitedS + 1 }
    match app.res with
    | none => app.nbHint
    | some content =>
      let buf := replyBuf content
      if nbJsonUint buf idKey = some app.reqId then
        match nbJsonText buf replyMax with
        | some reply =>
          { app with
            reply := reply, answered := true, pollTimer := false, faceText := reply,
            faceMood := .talking, awaiting := false }
        | none => app.nbHint
      else app.nbHint

def nbTextDone (app : NikitaBuddy) (timestamp : UInt32) : NikitaBuddy :=
  if app.prompt = [] then app.nbSwitch .menu
  else (app.nbSendPrompt app.prompt timestamp).nbBeginWait

/-- `nb_menu_cb`: 0 is `NbMenuType`, 90 `NbMenuPentest`, 100 `NbMenuAbout`, and the quick
commands start at 1. -/
def nbMenu (app : NikitaBuddy) (index : Nat) (timestamp : UInt32) : NikitaBuddy :=
  if h : 1 ≤ index ∧ index - 1 < app.quickPrompts.length then
    (app.nbSendPrompt (app.quickPrompts.get ⟨index - 1, h.2⟩) timestamp).nbBeginWait
  else if index = 0 then { app with prompt := [] }.nbSwitch .text
  else if index = 90 then (app.nbSendPrompt pentestPrompt timestamp).nbBeginWait
  else if index = 100 then { app with answered := true }.nbSwitch .result
  else app

def nbShowIntro (app : NikitaBuddy) : NikitaBuddy :=
  { app with
    intro := true, answered := true, faceText := [], faceMood := .idle, currentView := .face,
    animTimer := true }

/-- `nb_back_event_cb`; the dispatcher stops where it returns false. -/
def nbBack (app : NikitaBuddy) : NikitaBuddy :=
  if app.currentView = .face ∧ app.intro then { app with running := false }
  else if app.currentView = .menu then { app with pollTimer := false }.nbShowIntro
  else { app with pollTimer := false, animTimer := false }.nbSwitch .menu

def start (tick : UInt32) (extras req res say : Option Bytes) : NikitaBuddy :=
  (nbShowIntro ⟨.menu, false, false, false, false, false, true, 0, tick, 0, 0, [], [], [], .idle,
    (nbLoadQuick extras).map (·.2), req, res, say, true, false⟩).nbCheckSay

end NikitaBuddy

inductive Event
  /-- a companion, or the card: the files are others now -/
  | card (req res say : Option Bytes)
  | menu (index : Nat) (timestamp : UInt32)
  /-- the keyboard is left with a line in `prompt` -/
  | textDone (text : Bytes) (timestamp : UInt32)
  | back
  | faceOk
  | poll
  | anim
  | say

namespace NikitaBuddy

/-- A view gets the keys only while it is shown. Leaving by Back or OK ends the waiting. -/
def step (app : NikitaBuddy) (e : Event) : Option NikitaBuddy :=
  if !app.running then none
  else
    match e with
    | .card req res say => some { app with req := req, res := res, say := say }
    | .menu index timestamp =>
      if app.currentView = .menu then some (app.nbMenu index timestamp) else none
    | .textDone text timestamp =>
      if app.currentView = .text then
        some ({ app with prompt := (cstr text).take (promptMax - 1) }.nbTextDone timestamp)
      else none
    | .back => some { app with awaiting := false }.nbBack
    | .faceOk =>
      if app.currentView = .face then some { app with awaiting := false }.nbFaceOk else none
    | .poll => some app.nbPoll
    | .anim => some app
    | .say => some app.nbCheckSay

def machine : Machine NikitaBuddy Event := ⟨step⟩

/-- While a reply is awaited on its screen, the Buddy has not been answered and polls. -/
def Listens (app : NikitaBuddy) : Prop :=
  app.awaiting → app.currentView = .face → app.answered = false ∧ app.pollTimer = true

/-- The awaited screen, which every step that keeps waiting has to keep. -/
def Waits (app : NikitaBuddy) : Prop :=
  app.awaiting → app.currentView = .face ∧ app.answered = false ∧ app.pollTimer = true

/-- On the card is a line that was not shown before, with an id and a text. -/
def hasFreshLine (app : NikitaBuddy) : Bool :=
  match app.say with
  | none => false
  | some content =>
    let buf := replyBuf content
    match nbJsonUint buf idKey, nbJsonText buf replyMax with
    | some id, some text =>
      id ≠ 0 && id ≠ app.lastSayId && (nbJsonUint buf shownKey).getD 0 = 0 && text ≠ []
    | _, _ => false

/-- No say tick finds a fresh line while a reply is awaited. -/
def NoLineInWait (app : NikitaBuddy) : Event → Prop
  | .say => app.awaiting → app.hasFreshLine = false
  | _ => True

variable {app : NikitaBuddy}

theorem nbCheckSay_of_not_fresh (h : app.hasFreshLine = false) :
    ∃ id, app.nbCheckSay = { app with lastSayId := id } := by
  unfold hasFreshLine at h
  unfold nbCheckSay
  cases hsay : app.say with
  | none => exact ⟨app.lastSayId, by simp only [hsay.symm]⟩
  | some content =>
    simp only [hsay] at h ⊢
    cases hid : nbJsonUint (replyBuf content) idKey with
    | none => exact ⟨app.lastSayId, by simp only [hsay.symm]⟩
    | some id =>
      simp only [hid] at h ⊢
      split
      · exact ⟨app.lastSayId, by simp only [hsay.symm]⟩
      · next h0 =>
        split
        · exact ⟨app.lastSayId, by simp only [hsay.symm]⟩
        · next hlast =>
          split
          · exact ⟨id, by simp only [hsay.symm]⟩
          · next hshown =>
            refine ⟨app.lastSayId, ?_⟩
            unfold nbSayLine
            cases htext : nbJsonText (replyBuf content) replyMax with
            | none => simp only [hsay.symm]
            | some text =>
              simp only [htext, not_not.mp hshown] at h
              have hnil : text = [] := by simpa [h0, hlast] using h
              simp only [hnil, if_true, hsay.symm]

theorem nbHint_frame (app : NikitaBuddy) : app.nbHint.currentView = app.currentView ∧
    app.nbHint.answered = app.answered ∧ app.nbHint.pollTimer = app.pollTimer ∧
      app.nbHint.awaiting = app.awaiting := by
  unfold nbHint
  split <;> exact ⟨rfl, rfl, rfl, rfl⟩

theorem Waits.of_frame {app app' : NikitaBuddy} (h : app.Waits)
    (hview : app'.currentView = app.currentView) (hanswered : app'.answered = app.answered)
    (hpoll : app'.pollTimer = app.pollTimer) (hawaiting : app'.awaiting = app.awaiting) :
    app'.Waits := by
  unfold Waits
  rw [hview, hanswered, hpoll, hawaiting]
  exact h

theorem waits_send (app : NikitaBuddy) (text : Bytes) (timestamp : UInt32) :
    (app.nbSendPrompt text timestamp).nbBeginWait.Waits := fun _ => ⟨rfl, rfl, rfl⟩

theorem Waits.nbPoll (h : app.Waits) : app.nbPoll.Waits := by
  have hhint : ({ app with waitedS := app.waitedS + 1 }.nbHint).Waits := by
    obtain ⟨hview, hanswered, hpoll, hawaiting⟩ :=
      nbHint_frame { app with waitedS := app.waitedS + 1 }
    exact h.of_frame hview hanswered hpoll hawaiting
  unfold NikitaBuddy.nbPoll
  split
  · exact h
  · dsimp only
    split
    · exact hhint
    · split
      · split
        · exact fun hawaiting => absurd hawaiting Bool.false_ne_true
        · exact hhint
      · exact hhint

theorem Waits.not_awaiting (h : app.Waits) (hview : app.currentView ≠ .face) :
    app.awaiting = false :=
  Bool.eq_false_iff.mpr fun hawaiting => hview (h hawaiting).1

theorem Waits.nbMenu (h : app.Waits) (hview : app.currentView = .menu)
    (index : Nat) (timestamp : UInt32) : (app.nbMenu index timestamp).Waits := by
  have hnot : app.awaiting = false := h.not_awaiting (by rw [hview]; exact NbView.noConfusion)
  unfold NikitaBuddy.nbMenu
  split
  · exact waits_send _ _ _
  · split
    · exact fun hawaiting => absurd (hnot.symm.trans hawaiting) Bool.false_ne_true
    · split
      · exact waits_send _ _ _
      · split
        · exact fun hawaiting => absurd (hnot.symm.trans hawaiting) Bool.false_ne_true
        · exact h

theorem Waits.nbTextDone (h : app.Waits) (hview : app.currentView = .text)
    (timestamp : UInt32) : (app.nbTextDone timestamp).Waits := by
  have hnot : app.awaiting = false := h.not_awaiting (by rw [hview]; exact NbView.noConfusion)
  unfold NikitaBuddy.nbTextDone
  split
  · exact fun hawaiting => absurd (hnot.symm.trans hawaiting) Bool.false_ne_true
  · exact waits_send _ _ _

theorem nbBack_awaiting (app : NikitaBuddy) : app.nbBack.awaiting = app.awaiting := by
  unfold nbBack
  split
  · rfl
  · split <;> rfl

theorem nbFaceOk_awaiting (app : NikitaBuddy) : app.nbFaceOk.awaiting = app.awaiting := by
  unfold nbFaceOk
  split <;> rfl

theorem nbCheckSay_awaiting (app : NikitaBuddy) : app.nbCheckSay.awaiting = app.awaiting := by
  have hline (buf : Bytes) (id : UInt32) : (app.nbSayLine buf id).awaiting = app.awaiting := by
    unfold nbSayLine
    split
    · rfl
    · split
      · rfl
      · split <;> rfl
  unfold nbCheckSay
  split
  · rfl
  · dsimp only
    split
    · rfl
    · split
      · rfl
      · split
        · rfl
        · split
          · rfl
          · exact hline _ _

theorem waits_of_not_awaiting (h : app.awaiting = false) : app.Waits :=
  fun hawaiting => absurd (h.symm.trans hawaiting) Bool.false_ne_true

theorem waits_step (app : NikitaBuddy) (e : Event) (app' : NikitaBuddy) (h : app.Waits)
    (hok : app.NoLineInWait e) (hs : machine.step app e = some app') : app'.Waits := by
  simp only [machine, step] at hs
  split at hs
  · cases hs
  cases e with
  | card req res say =>
    cases hs
    exact h
  | menu index timestamp =>
    obtain ⟨hview, hs⟩ := Option.ite_none_right_eq_some.mp hs
    cases hs
    exact h.nbMenu hview index timestamp
  | textDone text timestamp =>
    obtain ⟨hview, hs⟩ := Option.ite_none_right_eq_some.mp hs
    cases hs
    exact @Waits.nbTextDone { app with prompt := (cstr text).take (promptMax - 1) } h hview
      timestamp
  | back =>
    cases hs
    exact waits_of_not_awaiting (nbBack_awaiting _)
  | faceOk =>
    obtain ⟨-, hs⟩ := Option.ite_none_right_eq_some.mp hs
    cases hs
    exact waits_of_not_awaiting (nbFaceOk_awaiting _)
  | poll =>
    cases hs
    exact h.nbPoll
  | anim =>
    cases hs
    exact h
  | say =>
    cases hs
    cases hawaiting : app.awaiting with
    | false => exact waits_of_not_awaiting ((nbCheckSay_awaiting app).trans hawaiting)
    | true =>
      obtain ⟨id, hid⟩ := nbCheckSay_of_not_fresh (hok hawaiting)
      rw [hid]
      exact h

theorem waits_start (tick : UInt32) (extras req res say : Option Bytes) :
    (start tick extras req res say).Waits :=
  waits_of_not_awaiting (nbCheckSay_awaiting _)

/-- In every run in which no line to say arrives during a wait, the Buddy listens for the awaited
reply as long as its screen is shown. -/
theorem listens_of_run (tick : UInt32) (extras req res say : Option Bytes) (es : List Event)
    (app : NikitaBuddy) (h : machine.run (start tick extras req res say) es = some app)
    (hok : machine.Meets NoLineInWait (start tick extras req res say) es) : app.Listens :=
  fun hawaiting _ => (machine.run_invariant_of_meets waits_step (waits_start _ _ _ _ _) hok h
    hawaiting).2

instance (app : NikitaBuddy) : ∀ e, Decidable (app.NoLineInWait e)
  | .say => inferInstanceAs (Decidable (app.awaiting = true → app.hasFreshLine = false))
  | .card _ _ _ | .menu _ _ | .textDone _ _ | .back | .faceOk | .poll | .anim => isTrue trivial

/-- OK on the opening face, a line from the keyboard, and its reply. -/
def askAndHear : List Event :=
  [.faceOk, .menu 0 7, .textDone (ascii "hi") 7, .say, .anim,
    .card none (some (ascii "\x7b\"id\":41,\"text\":\"old\"\x7d")) none, .poll]

theorem askAndHear_listens : ∃ app, machine.run (start 41 none none none none) askAndHear = some app ∧
    app.awaiting = true ∧ app.Listens := by
  refine ⟨(machine.run (start 41 none none none none) askAndHear).get (by decide), by decide,
    by decide, ?_⟩
  exact listens_of_run 41 none none none none askAndHear _ (by decide) (by decide)

/-- Nikita speaks first while the reply is awaited. -/
def askAndSpokenTo : List Event :=
  [.faceOk, .menu 0 7, .textDone (ascii "hi") 7,
    .card none none (some (ascii "\x7b\"id\":5,\"text\":\"psst\"\x7d")), .say]

theorem sometimes_stops_listening : ¬ ∀ (tick : UInt32) (extras req res say : Option Bytes)
    (es : List Event) (app : NikitaBuddy),
      machine.run (start tick extras req res say) es = some app → app.Listens := by
  intro hall
  have h := hall 41 none none none none askAndSpokenTo
    ((machine.run (start 41 none none none none) askAndSpokenTo).get (by decide)) (by decide)
    (by decide) (by decide)
  exact absurd h.1 (by decide)

end NikitaBuddy
end NikitaFirmware.Buddy
