import NikitaFirmware.EventLoop.Loop

/-!
# No wake-up is lost

Waiting for a notification clears all of its bits, and an iteration handles one of them. The
branches of events and timers restore the others. The branch of pending callbacks restores none;
a thread flag is the only bit that this can lose, since the branches of all others come first.
-/

namespace NikitaFirmware.EventLoop
open Foundations Option

namespace Flags

variable (flags a b : Flags) (f g : Flag)

@[simp] theorem set_self : flags.set f f = true := Function.update_self f _ flags

@[simp] theorem without_self : flags.without f f = false :=
  Function.update_self f _ flags

theorem set_of_ne (h : g ≠ f) : flags.set f g = flags g := Function.update_of_ne h _ _

theorem without_of_ne (h : g ≠ f) : flags.without f g = flags g := Function.update_of_ne h _ _

variable {flags f g}

theorem set_mono (h : flags g = true) : flags.set f g = true := by
  by_cases hg : g = f
  · rw [hg, set_self]
  · rw [set_of_ne flags f g hg, h]

end Flags

/-- The bits that the current iteration is going to restore. -/
def Pc.carried : Pc → Flags
  | .getWaitingItem rest | .processEvent _ rest | .setCurrentItem _ rest | .getLevel _ rest
  | .callback (.edgeEvent _ rest) | .callback (.levelEvent _ rest) | .getLevelAgain _ rest
  | .processed _ rest _ | .finish _ rest _ | .notifyEvent rest | .syncFlags rest
  | .processTimerQueue rest | .restoreFlags rest => rest
  | .idle | .waiting | .callback .pendingCallback | .callback .threadFlags
  | .callback .timerOrTick | .processPendingCallbacks => Flags.none

/-- Whether `furi_event_loop_sync_flags` is still to come in this iteration, unless the waiting
list is found empty. -/
def Pc.beforeSync : Pc → Bool
  | .getWaitingItem _ | .processEvent _ _ | .setCurrentItem _ _ | .getLevel _ _
  | .callback (.edgeEvent _ _) | .callback (.levelEvent _ _) | .getLevelAgain _ _
  | .processed _ _ _ | .finish _ _ _ | .notifyEvent _ | .syncFlags _ => true
  | _ => false

/-- Whether the timer queue is being emptied. -/
def Pc.drainsTimers : Pc → Bool
  | .processTimerQueue _ => true
  | _ => false

/-- Whether the queue of pending callbacks is being emptied. -/
def Pc.drainsPending : Pc → Bool
  | .callback .pendingCallback | .processPendingCallbacks => true
  | _ => false

/-- Every bit that was set and not handled yet is in the notification value or going to be
restored, and so is the bit of every list that has something in it, unless the list is being
emptied. -/
structure Kept (s : State) : Prop where
  owed : ∀ f, f ≠ .stop → s.owed f = true → s.notification f = true ∨ s.pc.carried f = true
  waitingList : s.waitingList ≠ [] → s.notification .event = true ∨ s.pc.beforeSync = true
  timerQueue : s.timerQueue ≠ [] →
    s.notification .timer = true ∨ s.pc.carried .timer = true ∨ s.pc.drainsTimers = true
  pendingQueue : s.pendingQueue ≠ [] →
    s.notification .pending = true ∨ s.pc.carried .pending = true ∨ s.pc.drainsPending = true

theorem alloc_kept : Kept alloc where
  owed := fun _ _ h => absurd h Bool.false_ne_true
  waitingList := fun h => absurd rfl h
  timerQueue := fun h => absurd rfl h
  pendingQueue := fun h => absurd rfl h

/-- A step that leaves the loop where it stands, clears no bit, and sets the bit of each list
that gets something to hold. -/
structure Posts (s s' : State) : Prop where
  pc : s'.pc = s.pc
  notification : ∀ f, s.notification f = true → s'.notification f = true
  owed : ∀ f, s'.owed f = true → s.owed f = true ∨ s'.notification f = true
  waitingList : s'.waitingList ≠ [] → s.waitingList ≠ [] ∨ s'.notification .event = true
  timerQueue : s'.timerQueue ≠ [] → s.timerQueue ≠ [] ∨ s'.notification .timer = true
  pendingQueue : s'.pendingQueue ≠ [] → s.pendingQueue ≠ [] ∨ s'.notification .pending = true

variable {s s' s'' : State} {a : Addr} {object : Object} {event : Event} {d : Direction}
  {rest : Flags} {f : Flag}

theorem Kept.of_posts (h : Kept s) (hp : Posts s s') : Kept s' where
  owed := by
    intro f hf ho
    rw [hp.pc]
    cases hp.owed f ho with
    | inl ho => exact (h.owed f hf ho).imp_left (hp.notification f)
    | inr hn => exact .inl hn
  waitingList := by
    intro hne
    rw [hp.pc]
    cases hp.waitingList hne with
    | inl hne => exact (h.waitingList hne).imp_left (hp.notification .event)
    | inr hn => exact .inl hn
  timerQueue := by
    intro hne
    rw [hp.pc]
    cases hp.timerQueue hne with
    | inl hne => exact (h.timerQueue hne).imp_left (hp.notification .timer)
    | inr hn => exact .inl hn
  pendingQueue := by
    intro hne
    rw [hp.pc]
    cases hp.pendingQueue hne with
    | inl hne => exact (h.pendingQueue hne).imp_left (hp.notification .pending)
    | inr hn => exact .inl hn

theorem Posts.of_eq (hpc : s'.pc = s.pc) (hn : s'.notification = s.notification)
    (ho : s'.owed = s.owed) (hw : s'.waitingList ≠ [] → s.waitingList ≠ [])
    (ht : s'.timerQueue = s.timerQueue) (hp : s'.pendingQueue = s.pendingQueue) : Posts s s' where
  pc := hpc
  notification := fun _ h => hn ▸ h
  owed := fun _ h => .inl (ho ▸ h)
  waitingList := fun h => .inl (hw h)
  timerQueue := fun h => .inl (ht ▸ h)
  pendingQueue := fun h => .inl (hp ▸ h)

theorem Posts.refl (s : State) : Posts s s := .of_eq rfl rfl rfl id rfl rfl

theorem Posts.trans (h : Posts s s') (h' : Posts s' s'') : Posts s s'' where
  pc := h'.pc.trans h.pc
  notification := fun f hf => h'.notification f (h.notification f hf)
  owed := fun f hf => (h'.owed f hf).elim
    (fun hf => (h.owed f hf).imp_right (h'.notification f)) .inr
  waitingList := fun hne => (h'.waitingList hne).elim
    (fun hne => (h.waitingList hne).imp_right (h'.notification .event)) .inr
  timerQueue := fun hne => (h'.timerQueue hne).elim
    (fun hne => (h.timerQueue hne).imp_right (h'.notification .timer)) .inr
  pendingQueue := fun hne => (h'.pendingQueue hne).elim
    (fun hne => (h.pendingQueue hne).imp_right (h'.notification .pending)) .inr

theorem posts_notify (hpc : s'.pc = s.pc) (hn : s'.notification = s.notification)
    (ho : s'.owed = s.owed)
    (hw : s'.waitingList ≠ [] → s.waitingList ≠ [] ∨ f = .event)
    (ht : s'.timerQueue ≠ [] → s.timerQueue ≠ [] ∨ f = .timer)
    (hp : s'.pendingQueue ≠ [] → s.pendingQueue ≠ [] ∨ f = .pending) :
    Posts s (notify s' f) := by
  have hset : ∀ {g}, f = g → (notify s' f).notification g = true := by
    intro g hg
    rw [← hg]
    exact Flags.set_self _ _
  refine ⟨hpc, fun g hg => Flags.set_mono (hn ▸ hg), fun g hg => ?_, fun h => (hw h).imp_right hset,
    fun h => (ht h).imp_right hset, fun h => (hp h).imp_right hset⟩
  by_cases hgf : g = f
  · exact .inr (hset hgf.symm)
  · left
    rw [← ho, ← Flags.set_of_ne s'.owed f g hgf]
    exact hg

theorem posts_notify_self (s : State) (f : Flag) : Posts s (notify s f) :=
  posts_notify rfl rfl rfl .inl .inl .inl

theorem posts_faulted (s : State) : Posts s (faulted s) :=
  .of_eq rfl rfl rfl id rfl rfl

theorem posts_itemNotify (s : State) (a : Addr) : Posts s (itemNotify s a) := by
  unfold itemNotify itemEnqueue
  split
  · split
    · exact posts_notify rfl rfl rfl (fun _ => .inr rfl) .inl .inl
    · exact (posts_faulted s).trans (posts_notify_self _ _)
  · exact (posts_faulted s).trans (posts_notify_self _ _)

theorem posts_itemFree (s : State) (a : Addr) : Posts s (itemFree s a) := by
  unfold itemFree
  split
  · exact .of_eq rfl rfl rfl id rfl rfl
  · exact posts_faulted s

theorem posts_itemFreeLater (s : State) (a : Addr) : Posts s (itemFreeLater s a) := by
  unfold itemFreeLater
  split
  · exact .of_eq rfl rfl rfl id rfl rfl
  · exact posts_faulted s

theorem posts_linkNotify (h : linkNotify s object event = some s') : Posts s s' := by
  unfold linkNotify at h
  split at h
  · split at h
    · exact some.inj h ▸ posts_itemNotify s _
    all_goals exact some.inj h ▸ .of_eq rfl rfl rfl id rfl rfl
  · cases h

theorem posts_addItem (s : State) (object : Object) (event : Event) (a : Addr) (d : Direction) :
    Posts s (addItem s object event a d) :=
  .of_eq rfl rfl rfl id rfl rfl

theorem posts_unlinkItem (s : State) (object : Object) (a : Addr) (d : Direction) :
    Posts s (unlinkItem s object a d) := by
  refine Posts.of_eq rfl rfl rfl (fun hne => ?_) rfl rfl
  intro hnil
  exact hne (by rw [unlinkItem, hnil, List.erase_nil])

theorem posts_objectSubscribe {level : Bool}
    (h : objectSubscribe s object event a level = some s') : Posts s s' := by
  obtain ⟨d, -, -, -, -, rfl⟩ := objectSubscribe_cases h
  have hadd := posts_addItem s object event a d
  split
  · exact hadd.trans (posts_itemNotify _ a)
  · exact hadd

theorem posts_unsubscribe (h : unsubscribe s object = some s') : Posts s s' := by
  obtain ⟨a, -, ⟨-, rfl⟩ | ⟨it, d, -, -, -, -, rfl⟩⟩ := unsubscribe_cases h
  · exact posts_faulted s
  · have hunlink := posts_unlinkItem s object a d
    split
    · exact hunlink.trans (posts_itemFreeLater _ _)
    · exact hunlink.trans (posts_itemFree _ _)

theorem posts_call {c : Call} (h : call s c = some s') : Posts s s' := by
  cases c with
  | objectSubscribe object event a level => exact posts_objectSubscribe h
  | unsubscribe object => exact posts_unsubscribe h
  | pendCallback callback =>
    exact some.inj h ▸ posts_notify rfl rfl rfl .inl .inl (fun _ => .inr rfl)
  | timerEnqueueRequest timer request =>
    rw [call, timerEnqueueRequest] at h
    split at h
    · cases h
    · exact some.inj h ▸ posts_notify rfl rfl rfl .inl (fun _ => .inr rfl) .inl
  | subscribeThreadFlags =>
    rw [call, subscribeThreadFlags] at h
    split at h
    · cases h
    · exact some.inj h ▸ .of_eq rfl rfl rfl id rfl rfl
  | unsubscribeThreadFlags =>
    rw [call, unsubscribeThreadFlags] at h
    split at h
    · exact some.inj h ▸ .of_eq rfl rfl rfl id rfl rfl
    · cases h

theorem posts_outside {o : Outside} (h : outside s o = some s') : Posts s s' := by
  cases o with
  | linkNotify object event => exact posts_linkNotify h
  | threadFlagCallback => exact some.inj h ▸ posts_notify_self s .threadFlag
  | stop => exact some.inj h ▸ posts_notify_self s .stop
  | otherLoop object direction subscribe =>
    obtain ⟨-, rfl⟩ := otherLoop_cases h
    exact .of_eq rfl rfl rfl id rfl rfl

/-- The wait does not return with the stop bit. -/
def StopNotSet (s : State) : Label → Prop
  | .wake => s.notification .stop = false
  | .call _ | .outside _ | .run | .timeout _ | .loop | .level _ | .ret => True

/-- The wait does not return with a thread flag next to a pending callback, unless an event or a
timer request is handled first. -/
def ThreadFlagKept (s : State) : Label → Prop
  | .wake => s.notification .pending = true → s.notification .threadFlag = true →
      s.notification .event = true ∨ s.notification .timer = true
  | .call _ | .outside _ | .run | .timeout _ | .loop | .level _ | .ret => True

instance (s : State) : ∀ l, Decidable (StopNotSet s l)
  | .wake => instDecidableEqBool _ _
  | .call _ | .outside _ | .run | .timeout _ | .loop | .level _ | .ret => .isTrue trivial

instance (s : State) : ∀ l, Decidable (ThreadFlagKept s l)
  | .wake => instDecidableForall
  | .call _ | .outside _ | .run | .timeout _ | .loop | .level _ | .ret => .isTrue trivial

theorem never {b : Bool} {P : Prop} (hb : b = false) : b = true → P :=
  fun h => absurd (hb.symm.trans h) Bool.false_ne_true

theorem Kept.of_pc (h : Kept s) (hp : Posts s s') {pc pc' : Pc} (hpc : s.pc = pc)
    (hcarried : pc'.carried = pc.carried)
    (hsync : pc.beforeSync = true → pc'.beforeSync = true ∨ s'.waitingList = [] ∨
      s'.notification .event = true)
    (htimers : pc.drainsTimers = true → pc'.drainsTimers = true ∨ s'.timerQueue = [])
    (hpending : pc.drainsPending = true → pc'.drainsPending = true ∨ s'.pendingQueue = []) :
    Kept { s' with pc := pc' } := by
  subst hpc
  have h' := h.of_posts hp
  refine ⟨fun f hf ho => ?_, fun hne => ?_, fun hne => ?_, fun hne => ?_⟩
  · exact hcarried ▸ hp.pc ▸ h'.owed f hf ho
  · cases h'.waitingList hne with
    | inl hn => exact .inl hn
    | inr hs =>
      rcases hsync (hp.pc ▸ hs) with hs | hnil | hn
      · exact .inr hs
      · exact absurd hnil hne
      · exact .inl hn
  · rcases h'.timerQueue hne with hn | hc | hd
    · exact .inl hn
    · exact .inr (.inl (hcarried ▸ hp.pc ▸ hc))
    · exact .inr (.inr ((htimers (hp.pc ▸ hd)).resolve_right hne))
  · rcases h'.pendingQueue hne with hn | hc | hd
    · exact .inl hn
    · exact .inr (.inl (hcarried ▸ hp.pc ▸ hc))
    · exact .inr (.inr ((hpending (hp.pc ▸ hd)).resolve_right hne))

theorem Kept.awaited (h : Kept s) (hpc : s.pc = .waiting) :
    (∀ f, f ≠ .stop → s.owed f = true → s.notification f = true) ∧
      (s.waitingList ≠ [] → s.notification .event = true) ∧
      (s.timerQueue ≠ [] → s.notification .timer = true) ∧
      (s.pendingQueue ≠ [] → s.notification .pending = true) := by
  have hnone : ¬ (false = true ∨ false = true) := by decide
  refine ⟨fun f hf ho => ?_, fun hne => ?_, fun hne => ?_, fun hne => ?_⟩
  · have hc := h.owed f hf ho
    rw [hpc] at hc
    exact hc.resolve_right Bool.false_ne_true
  · have hc := h.waitingList hne
    rw [hpc] at hc
    exact hc.resolve_right Bool.false_ne_true
  · have hc := h.timerQueue hne
    rw [hpc] at hc
    exact hc.resolve_right hnone
  · have hc := h.pendingQueue hne
    rw [hpc] at hc
    exact hc.resolve_right hnone

theorem Kept.wake (h : Kept s) (hpc : s.pc = .waiting) (hstop : s.notification .stop = false)
    (hflag : s.notification .pending = true → s.notification .threadFlag = true →
      s.notification .event = true ∨ s.notification .timer = true)
    (hs : wake s = some s') : Kept s' := by
  obtain ⟨howed, hwaiting, htimers, hpending⟩ := h.awaited hpc
  -- a bit that is owed after the branch of `g` was entered is another one
  have hother : ∀ f g, f ≠ .stop → s.owed.without g f = true → f ≠ g ∧ s.notification f = true := by
    intro f g hf ho
    have hne : f ≠ g := by
      rintro rfl
      exact Bool.false_ne_true ((Flags.without_self s.owed f).symm.trans ho)
    exact ⟨hne, howed f hf (Flags.without_of_ne s.owed g f hne ▸ ho)⟩
  unfold EventLoop.wake at hs
  rw [if_neg (by simp [hstop])] at hs
  split at hs
  · obtain rfl := some.inj hs
    refine ⟨fun f hf ho => ?_, fun _ => .inr rfl, fun hne => ?_, fun hne => ?_⟩
    · obtain ⟨hne, hn⟩ := hother f .event hf ho
      exact .inr ((Flags.without_of_ne _ _ f hne).trans hn)
    · exact .inr (.inl ((Flags.without_of_ne _ _ _ (by decide)).trans (htimers hne)))
    · exact .inr (.inl ((Flags.without_of_ne _ _ _ (by decide)).trans (hpending hne)))
  case isFalse hevent =>
    split at hs
    · obtain rfl := some.inj hs
      refine ⟨fun f hf ho => ?_, fun hne => absurd (hwaiting hne) hevent, fun _ => .inr (.inr rfl),
        fun hne => ?_⟩
      · obtain ⟨hne, hn⟩ := hother f .timer hf ho
        exact .inr ((Flags.without_of_ne _ _ f hne).trans hn)
      · exact .inr (.inl ((Flags.without_of_ne _ _ _ (by decide)).trans (hpending hne)))
    case isFalse htimer =>
      -- neither of the last two branches restores a bit
      have hleft : ∀ f, f ≠ .stop → s.notification f = true → f = .pending ∨ f = .threadFlag := by
        intro f hf hn
        cases f with
        | event => exact absurd hn hevent
        | stop => exact absurd rfl hf
        | timer => exact absurd hn htimer
        | pending => exact .inl rfl
        | threadFlag => exact .inr rfl
      split at hs
      case isTrue hpend =>
        obtain rfl := some.inj hs
        refine ⟨fun f hf ho => ?_, fun hne => absurd (hwaiting hne) hevent,
          fun hne => absurd (htimers hne) htimer, fun _ => .inr (.inr rfl)⟩
        obtain ⟨hne, hn⟩ := hother f .pending hf ho
        obtain rfl := (hleft f hf hn).resolve_left hne
        exact absurd (hflag hpend hn) (not_or.mpr ⟨hevent, htimer⟩)
      case isFalse hpend =>
        split at hs
        · obtain rfl := some.inj hs
          refine ⟨fun f hf ho => ?_, fun hne => absurd (hwaiting hne) hevent,
            fun hne => absurd (htimers hne) htimer, fun hne => absurd (hpending hne) hpend⟩
          obtain ⟨hne, hn⟩ := hother f .threadFlag hf ho
          obtain rfl := (hleft f hf hn).resolve_right hne
          exact absurd hn hpend
        · cases hs

/-- At a place before the lists are looked at again. -/
theorem Kept.beforeSync (h : Kept s) (hp : Posts s s') {pc pc' : Pc} (hpc : s.pc = pc)
    (hcarried : pc'.carried = pc.carried) (hsync : pc'.beforeSync = true)
    (htimers : pc.drainsTimers = false) (hpending : pc.drainsPending = false) :
    Kept { s' with pc := pc' } :=
  h.of_pc hp hpc hcarried (fun _ => .inl hsync) (never htimers) (never hpending)

theorem Kept.getWaitingItem (h : Kept s) (hpc : s.pc = .getWaitingItem rest) :
    Kept (getWaitingItem s rest) := by
  unfold EventLoop.getWaitingItem
  split
  case h_1 hnil =>
    exact h.of_pc (.of_eq rfl rfl rfl id rfl rfl) hpc rfl (fun _ => .inr (.inl hnil)) (never rfl)
      (never rfl)
  case h_2 a waiting hcons =>
    have hp : Posts s { s with waitingList := waiting } :=
      .of_eq rfl rfl rfl (fun _ => hcons ▸ List.cons_ne_nil a waiting) rfl rfl
    exact h.beforeSync hp hpc rfl rfl rfl rfl

theorem Kept.finish {status : ProcessStatus} (h : Kept s) (hpc : s.pc = .finish a rest status) :
    Kept (finish s a rest status) := by
  have hd : s.pc.drainsTimers = false ∧ s.pc.drainsPending = false := by
    rw [hpc]
    exact ⟨rfl, rfl⟩
  cases status with
  | complete => exact h.beforeSync (.refl s) hpc rfl rfl rfl rfl
  | freeLater => exact h.beforeSync (posts_itemFree s a) hpc rfl rfl rfl rfl
  | incomplete =>
    -- the item is back in the list, and its notification is the next step
    have hn : (itemEnqueue s a).notification = s.notification ∧ (itemEnqueue s a).owed = s.owed ∧
        (itemEnqueue s a).timerQueue = s.timerQueue ∧
        (itemEnqueue s a).pendingQueue = s.pendingQueue := by
      unfold itemEnqueue
      split
      · split <;> exact ⟨rfl, rfl, rfl, rfl⟩
      · exact ⟨rfl, rfl, rfl, rfl⟩
    have hcarried : s.pc.carried = rest := by rw [hpc]; rfl
    refine ⟨fun f hf ho => ?_, fun _ => .inr rfl, fun hne => ?_, fun hne => ?_⟩
    · exact hn.1.symm ▸ hcarried ▸ h.owed f hf (hn.2.1 ▸ ho)
    · have hc := h.timerQueue (hn.2.2.1 ▸ hne)
      rw [hd.1, hcarried] at hc
      exact hn.1.symm ▸ hc
    · have hc := h.pendingQueue (hn.2.2.2 ▸ hne)
      rw [hd.2, hcarried] at hc
      exact hn.1.symm ▸ hc

theorem Kept.restoreFlags (h : Kept s) (hpc : s.pc = .restoreFlags rest) :
    Kept (restoreFlags s rest) := by
  have hcarried : s.pc.carried = rest := by rw [hpc]; rfl
  have hor : ∀ f, s.notification f = true ∨ rest f = true →
      (s.notification.or rest) f = true := fun f => (Bool.or_eq_true _ _).mpr
  refine ⟨fun f hf ho => .inl (hor f (hcarried ▸ h.owed f hf ho)), fun hne => ?_, fun hne => ?_,
    fun hne => ?_⟩
  · have hc := h.waitingList hne
    rw [hpc] at hc
    exact .inl (hor _ (.inl (hc.resolve_right Bool.false_ne_true)))
  · rcases h.timerQueue hne with hn | hc | hd
    · exact .inl (hor _ (.inl hn))
    · exact .inl (hor _ (.inr (hcarried ▸ hc)))
    · rw [hpc] at hd
      exact absurd hd Bool.false_ne_true
  · rcases h.pendingQueue hne with hn | hc | hd
    · exact .inl (hor _ (.inl hn))
    · exact .inl (hor _ (.inr (hcarried ▸ hc)))
    · rw [hpc] at hd
      exact absurd hd Bool.false_ne_true

theorem Kept.loopStep (h : Kept s) (hs : loopStep s = some s') : Kept s' := by
  unfold EventLoop.loopStep at hs
  split at hs
  case h_1 rest hpc => exact some.inj hs ▸ h.getWaitingItem hpc
  case h_2 a rest hpc =>
    rcases deref_cases hs with ⟨it, -, hk⟩ | ⟨-, rfl⟩
    · split at hk
      · obtain ⟨u, hu, rfl⟩ := map_eq_some_iff.mp hk
        exact h.beforeSync (posts_unsubscribe hu) hpc rfl rfl rfl rfl
      · obtain rfl := some.inj hk
        exact h.beforeSync (.refl s) hpc rfl rfl rfl rfl
    · exact h.of_posts (posts_faulted s)
  case h_3 a rest hpc =>
    rcases deref_cases hs with ⟨it, -, hk⟩ | ⟨-, rfl⟩
    · obtain rfl := some.inj hk
      have hp : Posts s { s with currentItem := some a } := .of_eq rfl rfl rfl id rfl rfl
      refine h.beforeSync hp hpc ?_ ?_ rfl rfl <;> split <;> rfl
    · exact h.of_posts (posts_faulted s)
  case h_4 a rest status hpc =>
    rcases deref_cases hs with ⟨it, -, hk⟩ | ⟨-, rfl⟩
    · obtain rfl := some.inj hk
      have hp : Posts s { s with currentItem := none } := .of_eq rfl rfl rfl id rfl rfl
      exact h.beforeSync hp hpc rfl rfl rfl rfl
    · exact h.of_posts (posts_faulted s)
  case h_5 a rest status hpc => exact some.inj hs ▸ h.finish hpc
  case h_6 rest hpc =>
    obtain rfl := some.inj hs
    exact h.beforeSync (posts_notify_self s .event) hpc rfl rfl rfl rfl
  case h_7 rest hpc =>
    obtain rfl := some.inj hs
    unfold syncFlags
    split
    case isTrue hnil =>
      exact h.of_pc (.refl s) hpc rfl (fun _ => .inr (.inl hnil)) (never rfl) (never rfl)
    case isFalse hne =>
      exact h.of_pc (posts_notify_self s .event) hpc rfl
        (fun _ => .inr (.inr (Flags.set_self s.notification .event))) (never rfl) (never rfl)
  case h_8 rest hpc =>
    obtain rfl := some.inj hs
    unfold processTimerQueue
    split
    case h_1 hnil =>
      exact h.of_pc (.refl s) hpc rfl (never rfl) (fun _ => .inr hnil) (never rfl)
    case h_2 t timers hcons =>
      have htimers : s.timerQueue ≠ [] := hcons ▸ List.cons_ne_nil t timers
      exact ⟨h.owed, h.waitingList, fun _ => h.timerQueue htimers, h.pendingQueue⟩
  case h_9 rest hpc => exact some.inj hs ▸ h.restoreFlags hpc
  case h_10 hpc =>
    obtain rfl := some.inj hs
    unfold processPendingCallbacks
    split
    case isTrue hnil =>
      exact h.of_pc (.refl s) hpc rfl (never rfl) (never rfl) (fun _ => .inr hnil)
    case isFalse hne =>
      exact h.of_pc (.refl s) hpc rfl (never rfl) (never rfl) (fun _ => .inl rfl)
  all_goals cases hs

theorem Kept.levelStep {level : Bool} (h : Kept s) (hs : levelStep s level = some s') :
    Kept s' := by
  unfold EventLoop.levelStep at hs
  split at hs
  case h_1 a rest hpc =>
    rcases deref_cases hs with ⟨it, -, hk⟩ | ⟨-, rfl⟩
    · obtain rfl := some.inj hk
      cases level <;> exact h.beforeSync (.refl s) hpc rfl rfl rfl rfl
    · exact h.of_posts (posts_faulted s)
  case h_2 a rest hpc =>
    rcases deref_cases hs with ⟨it, -, hk⟩ | ⟨-, rfl⟩
    · obtain rfl := some.inj hk
      exact h.beforeSync (.refl s) hpc rfl rfl rfl rfl
    · exact h.of_posts (posts_faulted s)
  case h_3 => cases hs

theorem posts_dropLast (s : State) : Posts s { s with pendingQueue := s.pendingQueue.dropLast } := by
  refine ⟨rfl, fun _ hn => hn, fun _ => .inl, .inl, .inl, fun hne => .inl fun hnil => ?_⟩
  apply hne
  rw [hnil, List.dropLast_nil]

theorem Kept.callbackReturn {frame : Frame} (h : Kept s) (hpc : s.pc = .callback frame) :
    Kept (callbackReturn s frame) := by
  cases frame with
  | edgeEvent a rest =>
    exact h.beforeSync (.refl s) hpc rfl rfl rfl rfl
  | levelEvent a rest =>
    exact h.beforeSync (.refl s) hpc rfl rfl rfl rfl
  | pendingCallback =>
    exact h.of_pc (posts_dropLast s) hpc rfl (never rfl) (never rfl) (fun _ => .inl rfl)
  | threadFlags | timerOrTick =>
    exact h.of_pc (.refl s) hpc rfl (never rfl) (never rfl) (never rfl)

theorem Kept.step {l : Label} (h : Kept s) (hstop : StopNotSet s l) (hflag : ThreadFlagKept s l)
    (hs : machine.step s l = some s') : Kept s' := by
  change EventLoop.step s l = some s' at hs
  unfold EventLoop.step at hs
  split at hs
  · cases hs
  cases l with
  | call c =>
    rw [transition] at hs
    split at hs
    · exact h.of_posts (posts_call hs)
    · cases hs
  | outside o => exact h.of_posts (posts_outside hs)
  | run =>
    rw [transition] at hs
    split at hs
    case h_1 hpc =>
      obtain rfl := some.inj hs
      exact h.of_pc (.refl s) hpc rfl (never rfl) (never rfl) (never rfl)
    case h_2 => cases hs
  | wake =>
    rw [transition] at hs
    split at hs
    case h_1 hpc => exact h.wake hpc hstop hflag hs
    case h_2 => cases hs
  | timeout callback =>
    rw [transition] at hs
    split at hs
    case h_1 hpc =>
      unfold timeout at hs
      split at hs
      · cases hs
      obtain rfl := some.inj hs
      refine h.of_pc (.refl s) hpc ?_ (never rfl) (never rfl) (never rfl)
      split <;> rfl
    case h_2 => cases hs
  | loop => exact h.loopStep hs
  | level level => exact h.levelStep hs
  | ret =>
    rw [transition] at hs
    split at hs
    case h_1 frame hpc => exact some.inj hs ▸ h.callbackReturn hpc
    case h_2 => cases hs

/-- Whenever the loop waits for a notification, every bit that was set and not handled since is
there to be read, and so is the bit of every list that has something in it. -/
theorem no_wakeup_lost {ls : List Label} (hstop : machine.Meets StopNotSet alloc ls)
    (hflag : machine.Meets ThreadFlagKept alloc ls) (h : machine.run alloc ls = some s)
    (hpc : s.pc = .waiting) :
    (∀ f, f ≠ .stop → s.owed f = true → s.notification f = true) ∧
      (s.waitingList ≠ [] → s.notification .event = true) ∧
      (s.timerQueue ≠ [] → s.notification .timer = true) ∧
      (s.pendingQueue ≠ [] → s.notification .pending = true) := by
  have hkept : Kept s := by
    have hmeets := machine.meets_and.mpr ⟨hstop, hflag⟩
    exact machine.run_invariant_of_meets (I := Kept)
      (fun s l s' hI hok hs => hI.step hok.1 hok.2 hs) alloc_kept hmeets h
  exact hkept.awaited hpc

/-- A timer request and a thread flag arrive together: the flag is there at the next wait. -/
def timerAndThreadFlag : List Label :=
  [.call .subscribeThreadFlags, .call (.timerEnqueueRequest 0 .start), .run,
    .outside .threadFlagCallback, .wake, .loop, .loop, .loop]

theorem no_wakeup_lost_timerAndThreadFlag :
    ∃ s, machine.run alloc timerAndThreadFlag = some s ∧ s.owed .threadFlag = true ∧
      ((∀ f, f ≠ .stop → s.owed f = true → s.notification f = true) ∧
        (s.waitingList ≠ [] → s.notification .event = true) ∧
        (s.timerQueue ≠ [] → s.notification .timer = true) ∧
        (s.pendingQueue ≠ [] → s.notification .pending = true)) :=
  ⟨_, rfl, rfl, @no_wakeup_lost _ timerAndThreadFlag (by decide) (by decide) rfl rfl⟩

/-- A callback is pending when a thread flag arrives: the branch of the callback drops the
flag. -/
def pendingAndThreadFlag : List Label :=
  [.call .subscribeThreadFlags, .call (.pendCallback 0), .run, .outside .threadFlagCallback,
    .wake, .loop, .ret, .loop]

theorem wakeup_lost_with_pending : ¬ ∀ ls s, machine.Meets StopNotSet alloc ls →
    machine.run alloc ls = some s → s.pc = .waiting →
    ∀ f, f ≠ .stop → s.owed f = true → s.notification f = true := by
  intro hall
  have hlost := hall pendingAndThreadFlag _ (by decide) rfl rfl .threadFlag (by decide) rfl
  exact Bool.false_ne_true hlost

end NikitaFirmware.EventLoop
