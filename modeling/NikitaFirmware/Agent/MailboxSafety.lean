import NikitaFirmware.Foundations.Slot
import NikitaFirmware.Agent.Mailbox

/-!
# Requests in the mailbox are dispatched exactly once

The mailbox simulates a one-slot mailbox whose item is the request file: the read of the
file takes the item, the removal clears the slot. The two are separate storage transactions,
so a client that writes between them loses its request. A client that writes only where no
request file exists loses none, and over runs of any length no other client is safe.
-/

namespace NikitaFirmware.Agent
open Foundations

def Next.taken : Next → List Taken
  | .dispatch req => [req]
  | .finish => []

/-- The request the agent has read and not yet run. -/
def Pc.taken : Pc → List Taken
  | .reqClose req | .reqRemove req | .run req => [req]
  | .resOpen w | .resWrite w | .resClose w _ => w.next.taken
  | _ => []

/-- The request that has been read while its file is not removed yet. -/
def Pc.unremoved : Pc → Option Taken
  | .reqClose req | .reqRemove req => some req
  | _ => none

/-- Every request the agent has taken so far, in order. -/
def State.taken (s : State) : List Taken := s.runs.map Run.req ++ s.pc.taken

/-- The request file as a one-slot mailbox. -/
def State.slot (s : State) : Slot Bytes Bytes where
  item := s.req.map fun r => (r.id, r.content)
  written := s.written
  taken := s.taken.map fun t => (t.id, t.text)
  clearing := s.pc.unremoved.map Taken.id

def slotLabels (s : State) : Action → List (Slot.Label Bytes Bytes)
  | .clientWrite content => [.write content]
  | .readReq n => (s.req.map fun r => Slot.Label.take (cstr (r.content.take n))).toList
  | .removeReq => [.clear]
  | _ => []

@[simp] theorem Next.taken_pc (n : Next) : n.pc.taken = n.taken := by
  cases n <;> rfl

@[simp] theorem Next.unremoved_pc (n : Next) : n.pc.unremoved = none := by
  cases n <;> rfl

@[simp] theorem ResWrite.taken_retry (w : ResWrite) : w.retry.taken = w.next.taken := by
  unfold ResWrite.retry
  split
  · rfl
  · exact w.next.taken_pc

@[simp] theorem ResWrite.unremoved_retry (w : ResWrite) : w.retry.unremoved = none := by
  unfold ResWrite.retry
  split
  · rfl
  · exact w.next.unremoved_pc

theorem slot_start (res : Option Bytes) : (start res).slot = Slot.empty := rfl

theorem slot_eq_of_pc {s : State} {pc : Pc} (res : Option Bytes)
    (htaken : pc.taken = s.pc.taken) (hunremoved : pc.unremoved = s.pc.unremoved) :
    { s with res := res, pc := pc }.slot = s.slot := by
  simp only [State.slot, State.taken, htaken, hunremoved]

/-- The two files and the sequence numbers behave as the abstract slot. -/
theorem mailbox_simulates_slot :
    machine.Simulates Slot.machine (fun s t => t = s.slot) slotLabels := by
  refine ⟨fun s a s' t hR h => ?_⟩
  subst hR
  cases fires_of_step h with
  | clientWrite hopen => exact ⟨_, rfl, rfl⟩
  | clientRead hopen => exact ⟨_, rfl, rfl⟩
  | poll hpc => exact ⟨_, rfl, (slot_eq_of_pc s.res (by rw [hpc]; rfl) (by rw [hpc]; rfl)).symm⟩
  | openReq hpc hreq =>
    exact ⟨_, rfl, (slot_eq_of_pc s.res (by rw [hpc]; rfl) (by rw [hpc]; rfl)).symm⟩
  | openReqFail hpc =>
    exact ⟨_, rfl, (slot_eq_of_pc s.res (by rw [hpc]; rfl) (by rw [hpc]; rfl)).symm⟩
  | missing hpc =>
    exact ⟨_, rfl, (slot_eq_of_pc s.res (by rw [hpc]; rfl) (by rw [hpc]; rfl)).symm⟩
  | busy hpc hreq =>
    refine ⟨_, rfl, (slot_eq_of_pc s.res ?_ ?_).symm⟩ <;> split <;> rw [hpc] <;> rfl
  | readReq hpc hreq hn =>
    simp [slotLabels, hreq, Machine.run, Slot.machine, Slot.step, State.slot, State.taken, hpc,
      Pc.taken, Pc.unremoved]
  | closeReq hpc => exact ⟨_, rfl, (slot_eq_of_pc s.res (by rw [hpc]; rfl) (by rw [hpc]; rfl)).symm⟩
  | removeReq hpc =>
    simp [slotLabels, Machine.run, Slot.machine, Slot.step, State.slot, State.taken, hpc,
      Pc.taken, Pc.unremoved, Next.taken]
  | openRes hpc =>
    exact ⟨_, rfl, (slot_eq_of_pc (some []) (by rw [hpc]; rfl) (by rw [hpc]; rfl)).symm⟩
  | openResFail hpc =>
    refine ⟨_, rfl, (slot_eq_of_pc s.res ?_ ?_).symm⟩
    · rw [ResWrite.taken_retry, hpc]
      rfl
    · rw [ResWrite.unremoved_retry, hpc]
      rfl
  | writeRes hpc hn =>
    exact ⟨_, rfl, (slot_eq_of_pc _ (by rw [hpc]; rfl) (by rw [hpc]; rfl)).symm⟩
  | closeRes hpc =>
    refine ⟨_, rfl, (slot_eq_of_pc s.res ?_ ?_).symm⟩
    · split <;> simp only [Next.taken_pc, ResWrite.taken_retry, hpc] <;> rfl
    · split <;> simp only [Next.unremoved_pc, ResWrite.unremoved_retry, hpc] <;> rfl
  | answer hpc hrun =>
    exact ⟨_, rfl, by simp [State.slot, State.taken, hpc, Pc.taken, Pc.unremoved, Next.taken]⟩
  | reboot hpc hrun =>
    exact ⟨_, rfl, by simp [State.slot, State.taken, hpc, Pc.taken, Pc.unremoved]⟩

/-- Every request written by a client has been dispatched exactly once, in order and with a
text that `reads` allows for it, except one in the agent's hands and one that waits in the
request file. -/
def Accounted (reads : Bytes → Bytes → Prop) (s : State) : Prop := s.slot.Accounted reads

def FileRead (content text : Bytes) : Prop :=
  ∃ n ≤ (content.take (reqMax - 1)).length, text = cstr (content.take n)

def WholeRead (content text : Bytes) : Prop := text = requestText content

/-- A client writes only where no request file exists. -/
def WritesWhenClear (s : State) : Action → Prop
  | .clientWrite _ => s.req = none
  | _ => True

/-- The storage does not cut the read of the request short. -/
def ReadsWhole (s : State) : Action → Prop
  | .readReq n => ∀ r ∈ s.req, cstr (r.content.take n) = requestText r.content
  | _ => True

instance (s : State) : ∀ a, Decidable (WritesWhenClear s a)
  | .clientWrite _ => inferInstanceAs (Decidable (s.req = none))
  | .clientRead | .poll | .openReq _ | .existsReq _ | .readReq _ | .closeReq | .removeReq
  | .openRes _ | .writeRes _ | .closeRes | .runReq _ => isTrue trivial

instance (s : State) : ∀ a, Decidable (ReadsWhole s a)
  | .readReq n =>
    inferInstanceAs (Decidable (∀ r ∈ s.req, cstr (r.content.take n) = requestText r.content))
  | .clientWrite _ | .clientRead | .poll | .openReq _ | .existsReq _ | .closeReq | .removeReq
  | .openRes _ | .writeRes _ | .closeRes | .runReq _ => isTrue trivial

theorem clear_fileRead_iff (s : State) (a : Action) (s' : State) (t : Slot Bytes Bytes)
    (hR : t = s.slot) (h : machine.step s a = some s') :
    WritesWhenClear s a ↔ Slot.machine.Meets (Slot.Clear FileRead) t (slotLabels s a) := by
  subst hR
  cases fires_of_step h with
  | clientWrite hopen => simp [WritesWhenClear, slotLabels, Machine.Meets, Slot.Clear,
      State.slot, Slot.machine, Slot.step]
  | readReq hpc hreq hn =>
    simp [WritesWhenClear, slotLabels, hreq, Machine.Meets, Slot.Clear, State.slot, hpc,
      Slot.machine, Slot.step, Pc.unremoved]
    exact ⟨_, by simpa using hn, rfl⟩
  | removeReq hpc => simp [WritesWhenClear, slotLabels, Machine.Meets, Slot.Clear,
      Slot.machine, Slot.step, State.slot, hpc, Pc.unremoved]
  | _ => simp [WritesWhenClear, slotLabels]

theorem clear_wholeRead_iff (s : State) (a : Action) (s' : State) (t : Slot Bytes Bytes)
    (hR : t = s.slot) (h : machine.step s a = some s') :
    WritesWhenClear s a ∧ ReadsWhole s a ↔
      Slot.machine.Meets (Slot.Clear WholeRead) t (slotLabels s a) := by
  subst hR
  cases fires_of_step h with
  | clientWrite hopen => simp [WritesWhenClear, ReadsWhole, slotLabels, Machine.Meets,
      Slot.Clear, State.slot, Slot.machine, Slot.step]
  | readReq hpc hreq hn =>
    simp [WritesWhenClear, ReadsWhole, slotLabels, hreq, Machine.Meets, Slot.Clear, State.slot,
      hpc, Slot.machine, Slot.step, Pc.unremoved, WholeRead]
  | removeReq hpc => simp [WritesWhenClear, ReadsWhole, slotLabels, Machine.Meets, Slot.Clear,
      Slot.machine, Slot.step, State.slot, hpc, Pc.unremoved]
  | _ => simp [WritesWhenClear, ReadsWhole, slotLabels]

/-- In every run in which clients write only where no request file exists, every request is
dispatched exactly once, whole where no read is cut short. Any other run loses a request. -/
theorem requests_dispatched_once (res : Option Bytes) (as : List Action) (s : State)
    (h : machine.run (start res) as = some s) :
    (machine.Meets WritesWhenClear (start res) as → Accounted FileRead s) ∧
    (machine.Meets (fun s a => WritesWhenClear s a ∧ ReadsWhole s a) (start res) as →
      Accounted WholeRead s) ∧
    (s.pc.unremoved = none → Accounted FileRead s →
      machine.Meets WritesWhenClear (start res) as) := by
  obtain ⟨t, hrun, ht⟩ := mailbox_simulates_slot.run (slot_start res).symm h
  have hfile := mailbox_simulates_slot.meets_iff clear_fileRead_iff (slot_start res).symm h
  have hwhole := mailbox_simulates_slot.meets_iff clear_wholeRead_iff (slot_start res).symm h
  subst ht
  refine ⟨fun hm => Slot.accounted_of_meets (hfile.mp hm) hrun,
    fun hm => Slot.accounted_of_meets (hwhole.mp hm) hrun, fun hun hacc => ?_⟩
  have hclear : s.slot.clearing = none := by simp only [State.slot, hun, Option.map_none]
  exact hfile.mpr ((Slot.accounted_iff hrun hclear).mp hacc)

/-- The agent starts, serves a request, and takes the next one. -/
def servedRun : List Action :=
  [.openRes true, .writeRes 8, .closeRes, .clientWrite (ascii "op: ping\n"), .poll,
    .openReq true, .readReq 9, .closeReq, .removeReq,
    .clientWrite (ascii "op: sys.vibro\n"), .openRes true, .writeRes 8, .closeRes,
    .runReq ⟨none, [], 0, 0, false, false, 0⟩, .openRes true, .writeRes 17, .closeRes,
    .clientRead, .poll, .openReq false, .existsReq true, .openReq true, .readReq 14, .closeReq]

theorem servedRun_dispatched_once : ∃ s, machine.run (start none) servedRun = some s ∧
    s.taken = [⟨0, ascii "op: ping\n"⟩, ⟨1, ascii "op: sys.vibro\n"⟩] ∧ Accounted WholeRead s := by
  refine ⟨(machine.run (start none) servedRun).get (by decide), by decide, by decide, ?_⟩
  exact (requests_dispatched_once none servedRun _ (by decide)).2.1 (by decide)

/-- The client writes its second request after the agent has read and closed the first one
and before it removes the file. -/
def lostRun : List Action :=
  [.openRes true, .writeRes 8, .closeRes, .clientWrite (ascii "op: ping\n"), .poll,
    .openReq true, .readReq 9, .closeReq, .clientWrite (ascii "op: sys.vibro\n"), .removeReq,
    .openRes true, .writeRes 8, .closeRes, .runReq ⟨none, [], 0, 0, false, false, 0⟩,
    .openRes true, .writeRes 17, .closeRes]

/-- The second request is gone, was never run, and the agent is back at its idle loop. -/
theorem requests_not_always_dispatched : ¬ ∀ (res : Option Bytes) (as : List Action) (s : State),
    machine.run (start res) as = some s → Accounted FileRead s := by
  intro hall
  have hacc := hall none lostRun ((machine.run (start none) lostRun).get (by decide)) (by decide)
  exact absurd hacc.1 (by decide)

end NikitaFirmware.Agent
