import NikitaFirmware.Foundations.Bytes
import NikitaFirmware.Foundations.Machine

/-!
# One direction of a pipe

One side sends pieces through a stream buffer and then frees itself, the other one reads.
A send or receive that moves nothing, which means that it waited for `state_check_period`, is
followed by `pipe_state` in a step of its own. The labels say how the threads interleave and
how much a send could write.
-/

namespace NikitaFirmware.Toolbox.Pipe
open Foundations Option

inductive PipeState
  | opened
  | broken
  deriving DecidableEq

/-- Where the sending side stands in `pipe_send`, with the bytes it has still to send. -/
inductive Sender
  | idle
  | sending (data : Bytes)
  | checking (data : Bytes)
  | freed
  deriving DecidableEq

/-- Where the receiving side stands in `pipe_receive`, with the number of bytes that are still
missing; `returned` is the end of a call that leaves so many of them out. -/
inductive Receiver
  | returned (missing : Nat)
  | receiving (length : Nat)
  | checking (length : Nat)
  deriving DecidableEq

def Receiver.isChecking : Receiver → Bool
  | .checking _ => true
  | _ => false

structure State where
  instanceCount : Nat
  buffer : Bytes
  sender : Sender
  receiver : Receiver
  /-- What `furi_stream_buffer_send` has accepted. -/
  sent : Bytes
  /-- What `pipe_receive` has handed over, in all its calls. -/
  delivered : Bytes
  deriving DecidableEq

def start : State := ⟨1, [], .idle, .returned 0, [], []⟩

def State.pipeState (s : State) : PipeState := if s.instanceCount = 1 then .opened else .broken

inductive Action
  | pipeSend (data : Bytes)
  /-- `furi_stream_buffer_send` puts `n` bytes into the buffer -/
  | streamSend (n : Nat)
  | sendCheck
  | pipeFree
  | pipeReceive (length : Nat)
  /-- `furi_stream_buffer_receive` takes what there is -/
  | streamReceive
  | receiveCheck

def sendLoop (data : Bytes) : Sender := if data = [] then .idle else .sending data

def receiveLoop (length : Nat) : Receiver := if length = 0 then .returned 0 else .receiving length

def step (capacity : Nat) (s : State) : Action → Option State
  | .pipeSend data => if s.sender = .idle then some { s with sender := sendLoop data } else none
  | .streamSend n =>
    match s.sender with
    | .sending data =>
      if n = 0 then
        -- it waited for space in vain
        if s.buffer.length = capacity then some { s with sender := .checking data } else none
      else if n ≤ data.length ∧ s.buffer.length + n ≤ capacity then
        some { s with
          buffer := s.buffer ++ data.take n, sent := s.sent ++ data.take n,
          sender := sendLoop (data.drop n) }
      else none
    | _ => none
  | .sendCheck =>
    match s.sender with
    | .checking data =>
      some { s with sender := if s.pipeState = .broken then .idle else .sending data }
    | _ => none
  | .pipeFree =>
    if s.sender = .idle then
      some { s with sender := .freed, instanceCount := s.instanceCount - 1 }
    else none
  | .pipeReceive length =>
    match s.receiver with
    | .returned _ => some { s with receiver := receiveLoop length }
    | _ => none
  | .streamReceive =>
    match s.receiver with
    | .receiving length =>
      let data := s.buffer.take length
      if data = [] then some { s with receiver := .checking length }
      else
        some { s with
          buffer := s.buffer.drop length, delivered := s.delivered ++ data,
          receiver := receiveLoop (length - data.length) }
    | _ => none
  | .receiveCheck =>
    match s.receiver with
    | .checking length =>
      some { s with
        receiver := if s.pipeState = .broken then .returned length else .receiving length }
    | _ => none

def machine (capacity : Nat) : Machine State Action := ⟨step capacity⟩

/-- Where the last `pipe_receive` returned too little, the sender is gone and all it sent has
been read. -/
def Complete (s : State) : Prop :=
  ∀ missing, s.receiver = .returned missing → 0 < missing → s.sender = .freed ∧ s.buffer = []

/-- The sender does not free its side between an empty receive and the check that follows it,
unless what it sent meanwhile is read first. -/
def FreesAfterReading (s : State) : Action → Prop
  | .pipeFree => s.receiver.isChecking → s.buffer = []
  | _ => True

/-- No byte is lost, doubled or out of place. -/
def InOrder (s : State) : Prop := s.delivered ++ s.buffer = s.sent

/-- What the count says, and what an observed end of the data stands for. -/
structure Settled (s : State) : Prop where
  asks : s.receiver ≠ .receiving 0 ∧ s.receiver ≠ .checking 0
  opened : s.sender ≠ .freed → s.pipeState = .opened
  drained : s.sender = .freed → s.receiver.isChecking → s.buffer = []
  complete : Complete s

theorem inOrder_step (capacity : Nat) (s : State) (a : Action) (s' : State) (h : InOrder s)
    (hs : (machine capacity).step s a = some s') : InOrder s' := by
  cases a with
  | pipeSend data =>
    simp only [machine, step, ite_none_right_eq_some] at hs
    obtain ⟨-, hs⟩ := hs
    cases hs
    exact h
  | streamSend n =>
    simp only [machine, step] at hs
    split at hs
    · split at hs
      · obtain ⟨-, hs⟩ := ite_none_right_eq_some.mp hs
        cases hs
        exact h
      · obtain ⟨-, hs⟩ := ite_none_right_eq_some.mp hs
        cases hs
        rw [InOrder, ← List.append_assoc, h]
    · cases hs
  | sendCheck =>
    simp only [machine, step] at hs
    split at hs
    · cases hs
      exact h
    · cases hs
  | pipeFree =>
    simp only [machine, step, ite_none_right_eq_some] at hs
    obtain ⟨-, hs⟩ := hs
    cases hs
    exact h
  | pipeReceive length =>
    simp only [machine, step] at hs
    split at hs
    · cases hs
      exact h
    · cases hs
  | streamReceive =>
    simp only [machine, step] at hs
    split at hs
    · split at hs
      · cases hs
        exact h
      · cases hs
        rw [InOrder, List.append_assoc, List.take_append_drop, h]
    · cases hs
  | receiveCheck =>
    simp only [machine, step] at hs
    split at hs
    · cases hs
      exact h
    · cases hs

theorem sendLoop_ne_freed (data : Bytes) : sendLoop data ≠ .freed := by
  unfold sendLoop
  split <;> exact Sender.noConfusion

theorem receiveLoop_asks (length : Nat) :
    receiveLoop length ≠ .receiving 0 ∧ receiveLoop length ≠ .checking 0 := by
  unfold receiveLoop
  split
  · exact ⟨Receiver.noConfusion, Receiver.noConfusion⟩
  · next h => exact ⟨fun heq => h (Receiver.receiving.inj heq), Receiver.noConfusion⟩

theorem receiveLoop_not_checking (length : Nat) : (receiveLoop length).isChecking = false := by
  unfold receiveLoop
  split <;> rfl

/-- The loop of `pipe_receive` ends by itself with nothing missing. -/
theorem receiveLoop_returned {length missing : Nat} (h : receiveLoop length = .returned missing) :
    missing = 0 := by
  unfold receiveLoop at h
  split at h
  · exact (Receiver.returned.inj h).symm
  · exact Receiver.noConfusion h

theorem Settled.of_sender {s s' : State} (h : Settled s) (hfreed : s.sender ≠ .freed)
    (hfreed' : s'.sender ≠ .freed) (hcount : s'.instanceCount = s.instanceCount)
    (hreceiver : s'.receiver = s.receiver) : Settled s' := by
  refine ⟨hreceiver ▸ h.asks, fun _ => ?_, fun h => absurd h hfreed', fun missing hmissing h0 => ?_⟩
  · rw [State.pipeState, hcount]
    exact h.opened hfreed
  · exact absurd (h.complete missing (hreceiver ▸ hmissing) h0).1 hfreed

theorem Settled.of_receiving {s s' : State} (h : Settled s) (hsender : s'.sender = s.sender)
    (hcount : s'.instanceCount = s.instanceCount) {length : Nat}
    (hreceiver : s'.receiver = receiveLoop length) : Settled s' := by
  refine ⟨hreceiver ▸ receiveLoop_asks length, fun hfreed => ?_, fun _ hcheck => ?_,
    fun missing hmissing h0 => ?_⟩
  · rw [State.pipeState, hcount]
    exact h.opened (hsender ▸ hfreed)
  · rw [hreceiver, receiveLoop_not_checking] at hcheck
    exact absurd hcheck Bool.false_ne_true
  · exact absurd (receiveLoop_returned (hreceiver ▸ hmissing)) (by omega)

theorem settled_step (capacity : Nat) (s : State) (a : Action) (s' : State) (h : Settled s)
    (hok : FreesAfterReading s a) (hs : (machine capacity).step s a = some s') : Settled s' := by
  cases a with
  | pipeSend data =>
    simp only [machine, step, ite_none_right_eq_some] at hs
    obtain ⟨hidle, hs⟩ := hs
    cases hs
    exact h.of_sender (by rw [hidle]; exact Sender.noConfusion) (sendLoop_ne_freed data) rfl rfl
  | streamSend n =>
    simp only [machine, step] at hs
    split at hs
    · next data hsending =>
      have hfreed : s.sender ≠ .freed := by rw [hsending]; exact Sender.noConfusion
      split at hs
      · obtain ⟨-, hs⟩ := ite_none_right_eq_some.mp hs
        cases hs
        exact h.of_sender hfreed Sender.noConfusion rfl rfl
      · obtain ⟨-, hs⟩ := ite_none_right_eq_some.mp hs
        cases hs
        exact h.of_sender hfreed (sendLoop_ne_freed _) rfl rfl
    · cases hs
  | sendCheck =>
    simp only [machine, step] at hs
    split at hs
    · next data hchecking =>
      cases hs
      refine h.of_sender (by rw [hchecking]; exact Sender.noConfusion) ?_ rfl rfl
      dsimp only
      split <;> exact Sender.noConfusion
    · cases hs
  | pipeFree =>
    simp only [machine, step, ite_none_right_eq_some] at hs
    obtain ⟨hidle, hs⟩ := hs
    cases hs
    refine ⟨h.asks, fun hfreed => absurd rfl hfreed, fun _ => hok, fun missing hmissing h0 => ?_⟩
    have hfreed := (h.complete missing hmissing h0).1
    rw [hidle] at hfreed
    exact Sender.noConfusion hfreed
  | pipeReceive length =>
    simp only [machine, step] at hs
    split at hs
    · cases hs
      exact h.of_receiving rfl rfl rfl
    · cases hs
  | streamReceive =>
    simp only [machine, step] at hs
    split at hs
    · next length hreceiving =>
      split at hs
      · next hempty =>
        cases hs
        -- it asked for something, so it found the buffer empty
        have h0 : length ≠ 0 := fun h0 => h.asks.1 (by rw [hreceiving, h0])
        exact ⟨⟨Receiver.noConfusion, fun heq => h0 (Receiver.checking.inj heq)⟩, h.opened,
          fun _ _ => (List.take_eq_nil_iff.mp hempty).resolve_left h0,
          fun _ h => Receiver.noConfusion h⟩
      · cases hs
        exact h.of_receiving rfl rfl rfl
    · cases hs
  | receiveCheck =>
    simp only [machine, step] at hs
    split at hs
    · next length hchecking =>
      cases hs
      have h0 : length ≠ 0 := fun h0 => h.asks.2 (by rw [hchecking, h0])
      refine ⟨?_, h.opened, fun _ hcheck => ?_, fun missing hmissing _ => ?_⟩
      · dsimp only
        split
        · exact ⟨Receiver.noConfusion, Receiver.noConfusion⟩
        · exact ⟨fun heq => h0 (Receiver.receiving.inj heq), Receiver.noConfusion⟩
      · dsimp only at hcheck
        split at hcheck <;> exact absurd hcheck Bool.false_ne_true
      · dsimp only at hmissing
        split at hmissing
        · next hbroken =>
          have hfreed : s.sender = .freed := by
            by_contra hne
            rw [h.opened hne] at hbroken
            exact PipeState.noConfusion hbroken
          exact ⟨hfreed, h.drained hfreed (by rw [hchecking]; rfl)⟩
        · exact Receiver.noConfusion hmissing
    · cases hs

theorem settled_start : Settled start := by
  refine ⟨⟨Receiver.noConfusion, Receiver.noConfusion⟩, fun _ => rfl,
    fun h => Sender.noConfusion h, fun missing hmissing h0 => ?_⟩
  exact absurd (Receiver.returned.inj hmissing).symm (by omega)

/-- In every interleaving the bytes arrive in order, and in every one in which the sender does
not leave unread bytes behind an empty receive, a short `pipe_receive` has read all there was. -/
theorem receive_complete (capacity : Nat) (as : List Action) (s : State)
    (h : (machine capacity).run start as = some s) :
    s.delivered ++ s.buffer = s.sent ∧
      ((machine capacity).Meets FreesAfterReading start as → Complete s) := by
  have horder : InOrder s := (machine capacity).run_invariant (inOrder_step capacity)
    (rfl : InOrder start) h
  exact ⟨horder, fun hok =>
    ((machine capacity).run_invariant_of_meets (settled_step capacity) settled_start hok h).complete⟩

instance (s : State) : ∀ a, Decidable (FreesAfterReading s a)
  | .pipeFree => inferInstanceAs (Decidable (s.receiver.isChecking = true → s.buffer = []))
  | .pipeSend _ | .streamSend _ | .sendCheck | .pipeReceive _ | .streamReceive | .receiveCheck =>
    isTrue trivial

/-- The sender sends two bytes and goes; the receiver asks for three. -/
def sendThenFree : List Action :=
  [.pipeReceive 3, .pipeSend [1, 2], .streamSend 2, .pipeFree, .streamReceive, .streamReceive,
    .receiveCheck]

theorem sendThenFree_complete : ∃ s, (machine 4).run start sendThenFree = some s ∧
    s.delivered ++ s.buffer = s.sent ∧ Complete s := by
  have h := receive_complete 4 sendThenFree
    (((machine 4).run start sendThenFree).get (by decide)) (by decide)
  exact ⟨_, some_get _ |>.symm, h.1, h.2 (by decide)⟩

/-- The sender's only byte comes right after the receiver has found the buffer empty. -/
def freeBeforeCheck : List Action :=
  [.pipeReceive 1, .streamReceive, .pipeSend [7], .streamSend 1, .pipeFree, .receiveCheck]

theorem receive_sometimes_incomplete : ¬ ∀ (capacity : Nat) (as : List Action) (s : State),
    (machine capacity).run start as = some s → Complete s := by
  intro hall
  have h := hall 4 freeBeforeCheck
    (((machine 4).run start freeBeforeCheck).get (by decide)) (by decide) 1 (by decide) (by decide)
  exact absurd h.2 (by decide)

end NikitaFirmware.Toolbox.Pipe
