import NikitaFirmware.Foundations.Machine
import NikitaFirmware.Buddy.Json

/-!
# The Buddy's mailbox

`nb_send_prompt` publishes a request in `req.json` and then overwrites `res.json`. Both
writes, and the poll, run on the GUI thread; a companion reads requests and writes answers
at any time. A file that is open cannot be opened again, so a whole-file access is one step.
The labels of the Buddy's accesses say how far they got: `none` where the open failed,
otherwise the number of bytes.
-/

namespace NikitaFirmware.Buddy
open Foundations

def promptMax : Nat := 512

def replyMax : Nat := 2048

def hintAfterS : UInt32 := 25

/-- What `nb_send_prompt` still has to write. -/
inductive Pc
  | idle
  | publish (json : Bytes)
  | wipe
  deriving DecidableEq

structure State where
  req : Option Bytes
  res : Option Bytes
  prompt : Bytes
  reply : Bytes
  reqId : UInt32
  nextId : UInt32
  waitedS : UInt32
  answered : Bool
  hintShown : Bool
  pc : Pc
  /-- The ids that the companion has read in `req.json`. -/
  known : List UInt32
  /-- `NbCustomPoll` has read what is in `res.json`. -/
  resRead : Bool
  /-- The answers to the outstanding request that the Buddy has overwritten unread. -/
  destroyed : List Bytes
  deriving DecidableEq

/-- The Buddy after `nb_show_intro`, on the card as an earlier run left it. -/
def start (tick : UInt32) (req res : Option Bytes) : State :=
  ⟨req, res, [], [], 0, tick, 0, true, false, .idle, [], false, []⟩

inductive Action
  /-- `nb_send_prompt` up to its first write -/
  | sendPrompt (text : Bytes) (timestamp : UInt32)
  | writeReq (n : Option Nat)
  | writeRes (n : Option Nat)
  | poll (n : Option Nat)
  /-- a screen that waits for no reply: `nb_show_say`, `nb_show_intro`, About -/
  | stopWaiting
  | companionRead
  | companionWrite (content : Bytes)

/-- The contents that `nb_send_prompt` puts in place of the old reply. -/
def noReply : Bytes := ascii "\x7b\"id\":0\x7d"

def nbWriteFile (file : Option Bytes) (data : Bytes) : Option Nat → Option Bytes
  | some n => some (data.take n)
  | none => file

def nbReadFile (file : Option Bytes) : Option Nat → Option Bytes
  | some n => file.map fun content => (content.take (replyMax - 1)).take n
  | none => none

def resId (content : Bytes) : Option UInt32 :=
  nbJsonUint (cstr (content.take (replyMax - 1))) idKey

/-- An answer to the outstanding request that the poll has not read. -/
def State.unread (s : State) : List Bytes :=
  s.res.toList.filter fun content => resId content == some s.reqId && !s.resRead

/-- The part of `nb_custom_event_cb` that finds no answer. -/
def State.hint (s : State) : State :=
  if !s.hintShown && hintAfterS ≤ s.waitedS then { s with hintShown := true } else s

def State.nbCustomPoll (s : State) (n : Option Nat) : State :=
  if s.answered then s
  else
    let s := { s with waitedS := s.waitedS + 1 }
    match nbReadFile s.res n with
    | none => s.hint
    | some buf =>
      let s := { s with resRead := true }
      if buf ≠ [] ∧ nbJsonUint (cstr buf) idKey = some s.reqId then
        match nbJsonText (cstr buf) replyMax with
        | some reply => { s with reply := reply, answered := true }
        | none => s.hint
      else s.hint

def step (s : State) : Action → Option State
  | .sendPrompt text timestamp =>
    if s.pc = .idle then
      let id := s.nextId + 1
      some { s with
        prompt := (cstr text).take (promptMax - 1), reqId := id, nextId := id, waitedS := 0,
        answered := false, hintShown := false, reply := [],
        pc := .publish (requestJson id (cstr text) timestamp) }
    else none
  | .writeReq n =>
    match s.pc with
    | .publish json => some { s with req := nbWriteFile s.req json n, pc := .wipe }
    | _ => none
  | .writeRes n =>
    if s.pc = .wipe then
      some { s with
        res := nbWriteFile s.res noReply n, pc := .idle, resRead := s.resRead && n.isNone,
        destroyed := s.destroyed ++ if n.isSome then s.unread else [] }
    else none
  | .poll n => if s.pc = .idle then some (s.nbCustomPoll n) else none
  | .stopWaiting => if s.pc = .idle then some { s with answered := true } else none
  | .companionRead =>
    some { s with known := s.known ++ (s.req.bind fun json => nbJsonUint json idKey).toList }
  | .companionWrite content =>
    if ∃ id ∈ s.known, resId content = some id then
      some { s with res := some content, resRead := false }
    else none

def machine : Machine State Action := ⟨step⟩

/-- An answer to the outstanding request is not written between the moment its id is set
and the wipe, and a new id is not the one a leftover `res.json` carries. -/
def AnswersAfterWipe (s : State) : Action → Prop
  | .companionWrite content => s.pc = .idle ∨ resId content ≠ some s.reqId
  | .sendPrompt _ _ => ∀ content ∈ s.res, resId content ≠ some (s.nextId + 1)
  | _ => True

/-- The Buddy has overwritten no unread answer, and where it is about to, there is none. -/
structure Intact (s : State) : Prop where
  kept : s.destroyed = []
  clear : s.pc ≠ .idle → ∀ content ∈ s.res, resId content ≠ some s.reqId

theorem unread_eq_nil {s : State} (h : ∀ content ∈ s.res, resId content ≠ some s.reqId) :
    s.unread = [] := by
  unfold State.unread
  apply List.filter_eq_nil_iff.mpr
  intro content hcontent
  have hne := h content (Option.mem_toList.mp hcontent)
  simp [hne]

theorem nbCustomPoll_frame (s : State) (n : Option Nat) :
    (s.nbCustomPoll n).res = s.res ∧ (s.nbCustomPoll n).reqId = s.reqId ∧
      (s.nbCustomPoll n).pc = s.pc ∧ (s.nbCustomPoll n).destroyed = s.destroyed := by
  have hhint (t : State) : t.hint.res = t.res ∧ t.hint.reqId = t.reqId ∧ t.hint.pc = t.pc ∧
      t.hint.destroyed = t.destroyed := by
    unfold State.hint
    split <;> exact ⟨rfl, rfl, rfl, rfl⟩
  unfold State.nbCustomPoll
  split
  · exact ⟨rfl, rfl, rfl, rfl⟩
  · dsimp only
    split
    · exact hhint _
    · split
      · split
        · exact ⟨rfl, rfl, rfl, rfl⟩
        · exact hhint _
      · exact hhint _

theorem intact_step (s : State) (a : Action) (s' : State) (h : Intact s)
    (hok : AnswersAfterWipe s a) (hs : machine.step s a = some s') : Intact s' := by
  obtain ⟨hkept, hclear⟩ := h
  cases a with
  | sendPrompt text timestamp =>
    simp only [machine, step] at hs
    split at hs
    · cases hs
      exact ⟨hkept, fun _ => hok⟩
    · cases hs
  | writeReq n =>
    simp only [machine, step] at hs
    split at hs
    · next json hpc =>
      cases hs
      exact ⟨hkept, fun _ => hclear (by rw [hpc]; simp)⟩
    · cases hs
  | writeRes n =>
    simp only [machine, step] at hs
    split at hs
    · next hpc =>
      cases hs
      -- the only write of the Buddy to `res.json`
      have hnone : s.unread = [] := unread_eq_nil (hclear (by rw [hpc]; simp))
      refine ⟨?_, fun h => absurd rfl h⟩
      simp [hkept, hnone]
    · cases hs
  | poll n =>
    simp only [machine, step] at hs
    split at hs
    · next hpc =>
      cases hs
      obtain ⟨-, -, hpc', hdestroyed⟩ := nbCustomPoll_frame s n
      exact ⟨hdestroyed.trans hkept, fun h => absurd (hpc'.trans hpc) h⟩
    · cases hs
  | stopWaiting =>
    simp only [machine, step] at hs
    split at hs
    · next hpc =>
      cases hs
      exact ⟨hkept, fun h => absurd hpc h⟩
    · cases hs
  | companionRead =>
    cases hs
    exact ⟨hkept, hclear⟩
  | companionWrite content =>
    simp only [machine, step] at hs
    split at hs
    · cases hs
      refine ⟨hkept, fun hpc c hc => ?_⟩
      cases hc
      exact hok.resolve_left hpc
    · cases hs

/-- In every run in which no answer to the outstanding request is written before the wipe,
the Buddy overwrites no answer unread. -/
theorem answers_not_destroyed (tick : UInt32) (req res : Option Bytes) (as : List Action)
    (s : State) (h : machine.run (start tick req res) as = some s)
    (hok : machine.Meets AnswersAfterWipe (start tick req res) as) : s.destroyed = [] :=
  (machine.run_invariant_of_meets intact_step ⟨rfl, fun h => absurd rfl h⟩ hok h).kept

instance (s : State) : ∀ a, Decidable (AnswersAfterWipe s a)
  | .companionWrite content =>
    inferInstanceAs (Decidable (s.pc = .idle ∨ resId content ≠ some s.reqId))
  | .sendPrompt _ _ =>
    inferInstanceAs (Decidable (∀ content ∈ s.res, resId content ≠ some (s.nextId + 1)))
  | .writeReq _ | .writeRes _ | .poll _ | .stopWaiting | .companionRead => isTrue trivial

/-- A prompt, its answer and the poll that shows it. -/
def conversation : List Action :=
  [.sendPrompt (ascii "hi") 7, .writeReq (some 28), .writeRes (some 8), .companionRead,
    .companionWrite (ascii "\x7b\"id\":42,\"text\":\"hello\",\"done\":true\x7d"), .poll (some 37)]

theorem conversation_not_destroyed : ∃ s, machine.run (start 41 none none) conversation = some s ∧
    s.reply = ascii "hello" ∧ s.destroyed = [] := by
  refine ⟨(machine.run (start 41 none none) conversation).get (by decide), by decide, by decide, ?_⟩
  exact answers_not_destroyed 41 none none conversation _ (by decide) (by decide)

/-- The companion answers as soon as the request is out. -/
def promptAnswer : List Action :=
  [.sendPrompt (ascii "hi") 7, .writeReq (some 28), .companionRead,
    .companionWrite (ascii "\x7b\"id\":42,\"text\":\"hello\",\"done\":true\x7d"), .writeRes (some 8)]

/-- The wipe destroys an answer that came before it. -/
theorem answers_sometimes_destroyed : ¬ ∀ (tick : UInt32) (req res : Option Bytes)
    (as : List Action) (s : State), machine.run (start tick req res) as = some s →
      s.destroyed = [] := by
  intro hall
  have hkept := hall 41 none none promptAnswer
    ((machine.run (start 41 none none) promptAnswer).get (by decide)) (by decide)
  cases hkept

end NikitaFirmware.Buddy
