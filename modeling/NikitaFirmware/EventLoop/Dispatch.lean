import NikitaFirmware.EventLoop.Levels

/-!
# Dispatching level-triggered events

An item whose level holds is in the waiting list, or the loop is about to look at its level, or
a thread is about to notify it. This is what keeps level-triggered items from being forgotten.
-/

namespace NikitaFirmware.EventLoop
open Foundations Option List Function

/-- The item whose level the loop is about to look at, or that it is about to put back. -/
def Pc.checks? : Pc → Option Addr
  | .processEvent a _ | .setCurrentItem a _ | .getLevel a _ | .callback (.levelEvent a _)
  | .getLevelAgain a _ | .processed a _ .incomplete | .finish a _ .incomplete => some a
  | _ => none

/-- The item of which `furi_event_loop_process_level_event` is in charge. -/
def Pc.level? : Pc → Option Addr
  | .getLevel a _ | .callback (.levelEvent a _) | .getLevelAgain a _ => some a
  | _ => none

/-- The item of a level-triggered event whose callback runs. -/
def Pc.called? : Pc → Option Addr
  | .callback (.levelEvent a _) => some a
  | _ => none

/-- The item that has passed the test for the once flag. -/
def Pc.plain? : Pc → Option Addr
  | .setCurrentItem a _ => some a
  | pc => pc.level?

def Expects (s : State) (a : Addr) : Prop := a ∈ s.waitingList ∨ s.pc.checks? = some a

/-- Every event has a direction; what the loop asks `get_level` about is level-triggered, and has
no other flag either. -/
structure Aimed (s : State) : Prop where
  directed : ∀ a it, s.items a = some it → ∃ d, it.event.noflags? = some d
  plain : ∀ a it, s.pc.plain? = some a → s.items a = some it → it.event.once = false
  level : ∀ a it, s.pc.level? = some a → s.items a = some it → it.event.edge = false

/-- Items keep their events, and those that the loop expects are not forgotten. -/
structure Carries (s s' : State) : Prop where
  items : ∀ a it', s'.items a = some it' → ∃ it, s.items a = some it ∧ it.event = it'.event ∧
    it.object = it'.object ∧ (it'.owner = true → it.owner = true)
  expects : ∀ a it, s'.items a = some it → it.owner = true → it.event.edge = false →
    Expects s a → Expects s' a

variable {s s' : State} {a : Addr} {it : Item} {object : Object} {event : Event} {d : Direction}

theorem Carries.of_items (hitems : s'.items = s.items)
    (hwaiting : ∀ a, a ∈ s.waitingList → a ∈ s'.waitingList)
    (hpc : ∀ a it, s.items a = some it → it.owner = true → it.event.edge = false →
      s.pc.checks? = some a → Expects s' a) : Carries s s' where
  items := fun _ it' hit' => ⟨it', hitems ▸ hit', rfl, rfl, id⟩
  expects := fun a it hit ho he hexp =>
    hexp.elim (fun hmem => .inl (hwaiting a hmem)) (hpc a it (hitems ▸ hit) ho he)

theorem Carries.of_same (hitems : s'.items = s.items) (hwaiting : s'.waitingList = s.waitingList)
    (hpc : ∀ a, s.pc.checks? = some a → s'.pc.checks? = some a) : Carries s s' :=
  .of_items hitems (fun _ h => hwaiting ▸ h) fun a _ _ _ _ h => .inr (hpc a h)

theorem mem_pushWaiting {b : Addr} : b ∈ (pushWaiting s a).waitingList ↔ b ∈ s.waitingList ∨ b = a := by
  change b ∈ (if a ∈ s.waitingList then s.waitingList else s.waitingList ++ [a]) ↔ _
  split
  · next hmem => exact ⟨.inl, fun h => h.elim id fun hb => hb ▸ hmem⟩
  · rw [mem_append, mem_singleton]

theorem Carries.itemNotify (hit : s.items a = some it) (ho : it.owner = true) :
    Carries s (itemNotify s a) := by
  rw [EventLoop.itemNotify, itemEnqueue_of_owned hit ho]
  refine .of_items rfl (fun b hb => mem_pushWaiting.mpr (.inl hb)) ?_
  intro b _ _ _ _ hpc
  exact .inr hpc

theorem linkNotify_spec (h : Live s) (hd : event.notified? = some d)
    (hs : linkNotify s object event = some s') :
    Carries s s' ∧ s'.items = s.items ∧ s'.pc = s.pc ∧
      (∀ a, s.link object d = .item a → a ∈ s'.waitingList) := by
  unfold linkNotify at hs
  rw [hd] at hs
  cases hl : s.link object d with
  | item a =>
    simp only [hl] at hs
    obtain rfl := some.inj hs
    obtain ⟨it, hit, ho, -⟩ := h.linked.link _ _ _ hl
    refine ⟨.itemNotify hit ho, itemNotify_items s a, ?_, fun b hb => ?_⟩
    · rw [itemNotify, itemEnqueue_of_owned hit ho]
      rfl
    · obtain rfl := LinkItem.item.inj hb
      rw [itemNotify, itemEnqueue_of_owned hit ho]
      exact mem_pushWaiting.mpr (.inr rfl)
  | null | otherLoop =>
    simp only [hl] at hs
    obtain rfl := some.inj hs
    exact ⟨.of_same rfl rfl fun _ h => h, rfl, rfl, fun _ hb => LinkItem.noConfusion hb⟩

theorem notified?_event (d : Direction) : d.event.notified? = some d := by
  cases d <;> rfl

theorem unsubscribe_spec (h : Live s) (hs : unsubscribe s object = some s') :
    Carries s s' ∧ s'.pc = s.pc := by
  obtain ⟨a, htree, hcases⟩ := unsubscribe_cases hs
  obtain ⟨it, hit, ho, rfl⟩ := h.linked.tree object a htree
  rcases hcases with ⟨hnone, -⟩ | ⟨it', d, hit', -, hd, -, rfl⟩
  · cases hit.symm.trans hnone
  obtain rfl := some.inj (hit.symm.trans hit')
  -- whatever else is expected stays so
  have hkeep : ∀ b, b ≠ a → Expects s b → Expects (unlinkItem s it.object a d) b := by
    rintro b hne (hb | hb)
    · exact .inl ((mem_erase_of_ne hne).mpr hb)
    · exact .inr hb
  split
  · next hc =>
    rw [itemFreeLater_of_some (s := unlinkItem s it.object a d) hit]
    refine ⟨⟨fun b it' hb => ?_, fun b it' hb ho' he hexp => ?_⟩, rfl⟩
    · obtain ⟨rfl, hv⟩ | ⟨-, hb⟩ := Ledger.update_cases hb
      · obtain rfl := some.inj hv
        exact ⟨it, hit, rfl, rfl, fun _ => ho⟩
      · exact ⟨it', hb, rfl, rfl, id⟩
    · obtain ⟨rfl, hv⟩ | ⟨hne, -⟩ := Ledger.update_cases hb
      · obtain rfl := some.inj hv
        exact absurd ho' Bool.false_ne_true
      · exact hkeep b hne hexp
  · next hc =>
    rw [itemFree_of_some (s := unlinkItem s it.object a d) hit]
    refine ⟨⟨fun b it' hb => ?_, fun b it' hb ho' he hexp => ?_⟩, rfl⟩
    · obtain ⟨-, hv⟩ | ⟨-, hb⟩ := Ledger.update_cases hb
      · cases hv
      · exact ⟨it', hb, rfl, rfl, id⟩
    · obtain ⟨-, hv⟩ | ⟨hne, -⟩ := Ledger.update_cases hb
      · cases hv
      · exact hkeep b hne hexp

theorem call_spec {c : Call} (h : Live s)
    (hc : ∀ object event a level, c ≠ .objectSubscribe object event a level)
    (hs : call s c = some s') : Carries s s' ∧ s'.pc = s.pc := by
  cases c with
  | objectSubscribe object event a level => exact absurd rfl (hc object event a level)
  | unsubscribe object => exact unsubscribe_spec h hs
  | pendCallback callback =>
    obtain rfl := some.inj hs
    exact ⟨.of_same rfl rfl fun _ h => h, rfl⟩
  | timerEnqueueRequest timer request =>
    rw [EventLoop.call, timerEnqueueRequest] at hs
    split at hs
    · cases hs
    · obtain rfl := some.inj hs
      exact ⟨.of_same rfl rfl fun _ h => h, rfl⟩
  | subscribeThreadFlags =>
    rw [EventLoop.call, subscribeThreadFlags] at hs
    split at hs
    · cases hs
    · obtain rfl := some.inj hs
      exact ⟨.of_same rfl rfl fun _ h => h, rfl⟩
  | unsubscribeThreadFlags =>
    rw [EventLoop.call, unsubscribeThreadFlags] at hs
    split at hs
    · obtain rfl := some.inj hs
      exact ⟨.of_same rfl rfl fun _ h => h, rfl⟩
    · cases hs

theorem outside_spec {o : Outside} (h : Live s) (hs : outside s o = some s') :
    Carries s s' ∧ s'.items = s.items ∧ s'.pc = s.pc := by
  cases o with
  | linkNotify object event =>
    change linkNotify s object event = some s' at hs
    obtain ⟨d, hd⟩ : ∃ d, event.notified? = some d := by
      cases hd : event.notified? with
      | some d => exact ⟨d, rfl⟩
      | none =>
        unfold EventLoop.linkNotify at hs
        rw [hd] at hs
        cases hs
    obtain ⟨hcarries, hitems, hpc, -⟩ := linkNotify_spec h hd hs
    exact ⟨hcarries, hitems, hpc⟩
  | threadFlagCallback =>
    obtain rfl := some.inj hs
    exact ⟨.of_same rfl rfl fun _ h => h, rfl, rfl⟩
  | stop =>
    obtain rfl := some.inj hs
    exact ⟨.of_same rfl rfl fun _ h => h, rfl, rfl⟩
  | otherLoop object direction subscribe =>
    obtain ⟨-, rfl⟩ := otherLoop_cases hs
    exact ⟨.of_same rfl rfl fun _ h => h, rfl, rfl⟩

theorem Aimed.of_carries (h : Aimed s) (hc : Carries s s') (hplain : ∀ a, s'.pc.plain? = some a →
      s.pc.plain? = some a ∨ ∀ it, s.items a = some it → it.event.once = false)
    (hlevel : ∀ a, s'.pc.level? = some a →
      s.pc.level? = some a ∨ ∀ it, s.items a = some it → it.event.edge = false) : Aimed s' where
  directed := by
    intro a it' hit'
    obtain ⟨it, hit, he, -⟩ := hc.items a it' hit'
    exact he ▸ h.directed a it hit
  plain := by
    intro a it' ha hit'
    obtain ⟨it, hit, he, -⟩ := hc.items a it' hit'
    rw [← he]
    exact (hplain a ha).elim (fun hp => h.plain a it hp hit) (fun hp => hp it hit)
  level := by
    intro a it' ha hit'
    obtain ⟨it, hit, he, -⟩ := hc.items a it' hit'
    rw [← he]
    exact (hlevel a ha).elim (fun hp => h.level a it hp hit) (fun hp => hp it hit)

theorem Aimed.of_pc (h : Aimed s) (hc : Carries s s') (hpc : s'.pc = s.pc) : Aimed s' :=
  h.of_carries hc (fun _ ha => .inl (hpc ▸ ha)) (fun _ ha => .inl (hpc ▸ ha))

/-- The rest of an iteration, when the level has been looked at for the last time. -/
def Pc.after : Pc → Bool
  | .processed _ _ _ | .finish _ _ _ | .notifyEvent _ | .syncFlags _ | .restoreFlags _
  | .waiting => true
  | _ => false

variable {pc : Pc}

theorem Pc.user_of_after (h : pc.after = true) : pc.user = false := by
  cases pc with
  | callback frame => exact absurd h Bool.false_ne_true
  | idle => exact absurd h Bool.false_ne_true
  | _ => rfl

structure LoopStep (s s' : State) : Prop where
  carries : Carries s s'
  aimed : Aimed s'
  owned : ∀ a it, s.items a = some it → it.owner = true → s'.items a = some it
  after : s.pc.after = true → s'.pc.after = true
  called : s'.pc.called? = none

theorem Pc.level?_of_called? (h : pc.called? = some a) : pc.level? = some a := by
  cases pc with
  | callback frame =>
    cases frame with
    | levelEvent b rest => exact h
    | _ => exact absurd h (by simp [Pc.called?])
  | _ => exact absurd h (by simp [Pc.called?])

theorem Pc.item?_of_plain? (h : pc.plain? = some a) : pc.item? = some a := by
  cases pc with
  | callback frame =>
    cases frame with
    | levelEvent b rest => exact h
    | _ => exact absurd h (by simp [Pc.plain?, Pc.level?])
  | setCurrentItem b rest => exact h
  | getLevel b rest => exact h
  | getLevelAgain b rest => exact h
  | _ => exact absurd h (by simp [Pc.plain?, Pc.level?])

theorem Pc.plain?_of_level? (h : pc.level? = some a) : pc.plain? = some a := by
  cases pc with
  | setCurrentItem b rest => exact absurd h (by simp [Pc.level?])
  | _ => exact h

theorem Pc.item?_of_level? (h : pc.level? = some a) : pc.item? = some a :=
  Pc.item?_of_plain? (Pc.plain?_of_level? h)

theorem Pc.called?_of_level? (h : pc.level? = none) : pc.called? = none := by
  cases hc : pc.called? with
  | none => rfl
  | some a => cases h.symm.trans (Pc.level?_of_called? hc)

theorem LoopStep.of_same (h : Aimed s) (hitems : s'.items = s.items)
    (hwaiting : s'.waitingList = s.waitingList)
    (hchecks : ∀ a, s.pc.checks? = some a → s'.pc.checks? = some a)
    (hplain : s'.pc.plain? = none) (hafter : s.pc.after = true → s'.pc.after = true) :
    LoopStep s s' := by
  have hcarries : Carries s s' := .of_same hitems hwaiting hchecks
  have hlevel : s'.pc.level? = none := by
    cases hpc : s'.pc with
    | callback frame =>
      rw [hpc] at hplain
      cases frame <;> first | rfl | exact hplain
    | _ =>
      rw [hpc] at hplain
      first | rfl | exact hplain
  refine ⟨hcarries, h.of_carries hcarries ?_ ?_, ?_, hafter, Pc.called?_of_level? hlevel⟩
  · intro a ha
    cases hplain.symm.trans ha
  · intro a ha
    cases hlevel.symm.trans ha
  · intro a it hit _
    exact hitems ▸ hit

/-- The loop leaves a place that checks no item for one that has no item at hand. -/
theorem LoopStep.move (h : Aimed s) {p : Pc} (hpc : s.pc = p) (hitems : s'.items = s.items)
    (hwaiting : s'.waitingList = s.waitingList) (hchecks : p.checks? = none)
    (hplain : s'.pc.plain? = none) (hafter : p.after = false ∨ s'.pc.after = true) :
    LoopStep s s' := by
  subst hpc
  refine .of_same h hitems hwaiting (fun a ha => ?_) hplain fun ha => ?_
  · cases hchecks.symm.trans ha
  · exact hafter.resolve_left (by simp [ha])

theorem LoopStep.getWaitingItem {rest : Flags} (h : Aimed s) (hpc : s.pc = .getWaitingItem rest) :
    LoopStep s (getWaitingItem s rest) := by
  have hchecks : s.pc.checks? = none := by rw [hpc]; rfl
  have hafter : s.pc.after = true → False := by
    rw [hpc]
    exact fun h => Bool.false_ne_true h
  unfold EventLoop.getWaitingItem
  split
  · exact .move h hpc rfl rfl rfl rfl (.inl rfl)
  · next a waiting hcons =>
    have hcarries : Carries s { s with waitingList := waiting, pc := .processEvent a rest } := by
      refine ⟨fun _ it' hit' => ⟨it', hit', rfl, rfl, id⟩, fun b it _ _ _ hexp => ?_⟩
      rcases hexp with hb | hb
      · rw [hcons] at hb
        rcases mem_cons.mp hb with rfl | hb
        · exact .inr rfl
        · exact .inl hb
      · cases hchecks.symm.trans hb
    refine ⟨hcarries, h.of_carries hcarries ?_ ?_, fun _ _ hit _ => hit, fun h => (hafter h).elim, rfl⟩
    · intro _ hp
      exact absurd hp (by simp [Pc.plain?, Pc.level?])
    · intro _ hp
      exact absurd hp (by simp [Pc.level?])

theorem LoopStep.finish {rest : Flags} {status : ProcessStatus} (hlive : Live s) (h : Aimed s)
    (hpc : s.pc = .finish a rest status) : LoopStep s (finish s a rest status) := by
  obtain ⟨it, hit, ho⟩ := hlive.processed a (by rw [hpc]; rfl)
  have hplain : ∀ b, Pc.plain? (.syncFlags rest) = some b ∨ Pc.plain? (.notifyEvent rest) = some b →
      False := by
    intro b hb
    rcases hb with hb | hb <;> exact absurd hb (by simp [Pc.plain?, Pc.level?])
  cases status with
  | complete => exact .move h hpc rfl rfl rfl rfl (.inr rfl)
  | incomplete =>
    have ho := ho true (by rw [hpc]; rfl)
    rw [EventLoop.finish, itemEnqueue_of_owned hit ho]
    have hcarries : Carries s { pushWaiting s a with pc := .notifyEvent rest } := by
      refine .of_items rfl (fun b hb => mem_pushWaiting.mpr (.inl hb)) fun b _ _ _ _ hb => ?_
      rw [hpc] at hb
      exact .inl (mem_pushWaiting.mpr (.inr (some.inj hb).symm))
    refine ⟨hcarries, h.of_carries hcarries ?_ ?_, fun _ _ hit _ => hit, fun _ => rfl, rfl⟩
    · exact fun b hb => (hplain b (.inr hb)).elim
    · exact fun b hb => (hplain b (.inr hb)).elim
  | freeLater =>
    have ho := ho false (by rw [hpc]; rfl)
    rw [EventLoop.finish, itemFree_of_some hit]
    have hcarries : Carries s
        { s with items := update s.items a none, freed := it.serial :: s.freed,
                 pc := .syncFlags rest } := by
      refine ⟨fun b it' hb => ?_, fun b it' hb _ _ hexp => ?_⟩
      · obtain ⟨-, hv⟩ | ⟨-, hb⟩ := Ledger.update_cases hb
        · cases hv
        · exact ⟨it', hb, rfl, rfl, id⟩
      · refine hexp.elim .inl fun hc => ?_
        rw [hpc] at hc
        exact absurd hc (by simp [Pc.checks?])
    refine ⟨hcarries, h.of_carries hcarries ?_ ?_, fun b it' hb ho' => ?_, fun _ => rfl, rfl⟩
    · exact fun b hb => (hplain b (.inl hb)).elim
    · exact fun b hb => (hplain b (.inl hb)).elim
    · change update s.items a none b = some it'
      rw [update_of_ne, hb]
      rintro rfl
      obtain rfl := some.inj (hit.symm.trans hb)
      cases ho.symm.trans ho'

/-- What one step of the loop thread does to the levels and the list of waiting items. -/
theorem loopStep_spec (hlive : Live s) (h : Aimed s) (hok : OnceNotProcessed s .loop)
    (hs : loopStep s = some s') : LoopStep s s' := by
  unfold loopStep at hs
  split at hs
  case h_1 rest hpc => exact some.inj hs ▸ .getWaitingItem h hpc
  case h_2 a rest hpc =>
    obtain ⟨it, hit, -, hk⟩ := hlive.of_deref (by rw [hpc]; rfl) hs
    have honce : it.event.once = false := by
      rw [OnceNotProcessed, processesOnce, hpc] at hok
      change (s.items a).any _ = false at hok
      rw [hit] at hok
      exact hok
    rw [if_neg (by simp [honce])] at hk
    obtain rfl := some.inj hk
    have hcarries : Carries s { s with pc := .setCurrentItem a rest } := by
      refine .of_same rfl rfl fun b hb => ?_
      rw [hpc] at hb
      exact hb
    refine ⟨hcarries, h.of_carries hcarries (fun b hb => .inr fun it' hit' => ?_) ?_,
      fun _ _ hit _ => hit, fun hafter => ?_, rfl⟩
    · obtain rfl := some.inj hb
      obtain rfl := some.inj (hit.symm.trans hit')
      exact honce
    · intro b hb
      exact absurd hb (by simp [Pc.level?])
    · rw [hpc] at hafter
      exact absurd hafter Bool.false_ne_true
  case h_3 a rest hpc =>
    obtain ⟨it, hit, -, hk⟩ := hlive.of_deref (by rw [hpc]; rfl) hs
    obtain rfl := some.inj hk
    have hchecks : s.pc.checks? = some a := by rw [hpc]; rfl
    have hplain : s.pc.plain? = some a := by rw [hpc]; rfl
    have hafter : s.pc.after = true → False := by
      rw [hpc]
      exact fun h => Bool.false_ne_true h
    cases hedge : it.event.edge with
    | true =>
      rw [if_pos rfl]
      have hcarries : Carries s
          { s with currentItem := some a, pc := .callback (.edgeEvent a rest) } := by
        refine .of_items rfl (fun _ hb => hb) fun b it' hb _ he hc => ?_
        obtain rfl := some.inj (hchecks.symm.trans hc)
        obtain rfl := some.inj (hit.symm.trans hb)
        cases he.symm.trans hedge
      refine ⟨hcarries, h.of_carries hcarries ?_ ?_, fun _ _ hit _ => hit, fun h => (hafter h).elim, rfl⟩
      · intro b hb
        exact absurd hb (by simp [Pc.plain?, Pc.level?])
      · intro b hb
        exact absurd hb (by simp [Pc.level?])
    | false =>
      rw [if_neg Bool.false_ne_true]
      have hcarries : Carries s { s with currentItem := some a, pc := .getLevel a rest } := by
        refine .of_same rfl rfl fun b hb => ?_
        exact hchecks.symm.trans hb
      refine ⟨hcarries, h.of_carries hcarries (fun b hb => .inl (hplain.trans hb)) ?_,
        fun _ _ hit _ => hit, fun h => (hafter h).elim, rfl⟩
      intro b hb
      refine .inr fun it' hit' => ?_
      obtain rfl := some.inj hb
      obtain rfl := some.inj (hit.symm.trans hit')
      exact hedge
  case h_4 a rest status hpc =>
    obtain ⟨it, hit, -, hk⟩ := hlive.of_deref (by rw [hpc]; rfl) hs
    obtain rfl := some.inj hk
    have hcarries : Carries s { s with
        currentItem := none
        pc := .finish a rest (if it.owner then status else .freeLater) } := by
      refine .of_items rfl (fun _ hb => hb) fun b it' hb ho _ hc => .inr ?_
      rw [hpc] at hc
      cases status with
      | incomplete =>
        obtain rfl := some.inj hc
        obtain rfl := some.inj (hit.symm.trans hb)
        rw [if_pos ho]
        rfl
      | complete => exact absurd hc (by simp [Pc.checks?])
      | freeLater => exact absurd hc (by simp [Pc.checks?])
    refine ⟨hcarries, h.of_carries hcarries ?_ ?_, fun _ _ hit _ => hit, fun _ => rfl, rfl⟩
    · intro b hb
      exact absurd hb (by simp [Pc.plain?, Pc.level?])
    · intro b hb
      exact absurd hb (by simp [Pc.level?])
  case h_5 a rest status hpc => exact some.inj hs ▸ .finish hlive h hpc
  case h_6 rest hpc | h_9 rest hpc => exact some.inj hs ▸ .move h hpc rfl rfl rfl rfl (.inr rfl)
  case h_7 rest hpc =>
    obtain rfl := some.inj hs
    unfold syncFlags
    split <;> exact .move h hpc rfl rfl rfl rfl (.inr rfl)
  case h_8 rest hpc =>
    obtain rfl := some.inj hs
    unfold processTimerQueue
    split
    · exact .move h hpc rfl rfl rfl rfl (.inr rfl)
    · exact .of_same h rfl rfl (fun _ hb => hb) (by rw [hpc]; rfl) fun hafter => hafter
  case h_10 hpc =>
    obtain rfl := some.inj hs
    unfold processPendingCallbacks
    split <;> exact .move h hpc rfl rfl rfl rfl (.inl rfl)
  all_goals cases hs

theorem step_of_live {l : Label} (h : Live s) : step s l = transition s l := by
  rw [step, h.linked.fault]
  rfl

theorem Aimed.of_idle (h : Aimed s) (hitems : s'.items = s.items) (hplain : s'.pc.plain? = none)
    (hlevel : s'.pc.level? = none) : Aimed s' where
  directed := fun a it hit => h.directed a it (hitems ▸ hit)
  plain := fun _ _ hp _ => absurd (hplain.symm.trans hp) (by simp)
  level := fun _ _ hp _ => absurd (hlevel.symm.trans hp) (by simp)

/-- A loop that waits wakes up with no item at hand. -/
theorem Aimed.wakes (h : Aimed s) (hpc : s.pc = .waiting) (hitems : s'.items = s.items)
    (hwaiting : s'.waitingList = s.waitingList) (hplain : s'.pc.plain? = none)
    (hlevel : s'.pc.level? = none) : Carries s s' ∧ Aimed s' ∧ s'.pc.level? = none := by
  refine ⟨.of_same hitems hwaiting fun a ha => ?_, h.of_idle hitems hplain hlevel, hlevel⟩
  rw [hpc] at ha
  exact absurd ha (by simp [Pc.checks?])

theorem wake_spec (h : Aimed s) (hpc : s.pc = .waiting) (hs : wake s = some s') :
    Carries s s' ∧ Aimed s' ∧ s'.pc.level? = none := by
  unfold wake at hs
  split at hs
  · exact some.inj hs ▸ h.wakes hpc rfl rfl rfl rfl
  split at hs
  · exact some.inj hs ▸ h.wakes hpc rfl rfl rfl rfl
  split at hs
  · exact some.inj hs ▸ h.wakes hpc rfl rfl rfl rfl
  split at hs
  · exact some.inj hs ▸ h.wakes hpc rfl rfl rfl rfl
  split at hs
  · obtain rfl := some.inj hs
    by_cases hflags : s.areThreadFlagsSubscribed = true
    · rw [if_pos hflags]
      exact h.wakes hpc rfl rfl rfl rfl
    · rw [if_neg hflags]
      exact h.wakes hpc rfl rfl rfl rfl
  · cases hs

theorem timeout_spec {callback : Bool} (h : Aimed s) (hpc : s.pc = .waiting)
    (hs : timeout s callback = some s') : Carries s s' ∧ Aimed s' ∧ s'.pc.level? = none := by
  unfold timeout at hs
  split at hs
  · cases hs
  obtain rfl := some.inj hs
  cases callback <;> exact h.wakes hpc rfl rfl rfl rfl

theorem callbackReturn_spec {frame : Frame} (h : Aimed s) (hpc : s.pc = .callback frame) :
    Carries s (callbackReturn s frame) ∧ Aimed (callbackReturn s frame) := by
  cases frame with
  | levelEvent a rest =>
    have hcarries : Carries s (callbackReturn s (.levelEvent a rest)) := by
      refine .of_same rfl rfl fun b hb => ?_
      rw [hpc] at hb
      exact hb
    refine ⟨hcarries, h.of_carries hcarries (fun b hb => .inl ?_) (fun b hb => .inl ?_)⟩
    · rw [hpc]
      exact hb
    · rw [hpc]
      exact hb
  | _ =>
    refine ⟨.of_same rfl rfl fun a ha => ?_, h.of_idle rfl rfl rfl⟩
    rw [hpc] at ha
    exact absurd ha (by simp [Pc.checks?])

structure Item.WaitsFor (it : Item) (d : Direction) : Prop where
  owner : it.owner = true
  edge : it.event.edge = false
  noflags : it.event.noflags? = some d

namespace World

/-- No item whose level holds is forgotten. `due` is what the step at hand is yet to notify. -/
structure Sound (w : World) (due : Option (Object × Direction)) : Prop where
  live : Live w.loop
  aimed : Aimed w.loop
  crashed : w.crashed = false
  called : ∀ a it, w.loop.pc.called? = some a → w.loop.items a = some it →
    ∃ d o, it.event.noflags? = some d ∧ w.looked = some (it.object, o) ∧ o.Level d
  awaited : ∀ a it d, w.loop.items a = some it → it.WaitsFor d → (w.objects it.object).Level d →
    Expects w.loop a ∨ (∃ t, (t, .linkNotify it.object d) ∈ w.threads) ∨ due = some (it.object, d)
  held : ∀ a, w.held = some a → w.loop.pc.after = true ∧ Expects w.loop a ∧
    ∃ it, w.loop.items a = some it ∧ it.owner = true ∧ it.event.edge = false

variable {w w' : World} {due : Option (Object × Direction)}

theorem sound_alloc (objects : Object → Primitive) : (World.alloc objects).Sound none where
  live := live_alloc
  aimed := ⟨fun _ _ h => absurd h (by simp [World.alloc, EventLoop.alloc]),
    fun _ _ _ h => absurd h (by simp [World.alloc, EventLoop.alloc]),
    fun _ _ _ h => absurd h (by simp [World.alloc, EventLoop.alloc])⟩
  crashed := rfl
  called := fun _ _ _ h => absurd h (by simp [World.alloc, EventLoop.alloc])
  awaited := fun _ _ _ h => absurd h (by simp [World.alloc, EventLoop.alloc])
  held := fun _ h => absurd h (by simp [World.alloc])

theorem Sound.of_carries (h : w.Sound due) (hlive : Live s') (haimed : Aimed s')
    (hc : Carries w.loop s')
    (hcalled : ∀ a, s'.pc.called? = some a → w.loop.pc.called? = some a) {held : Option Addr}
    (hheld : ∀ a, held = some a → s'.pc.after = true ∧ Expects s' a ∧
      ∃ it, s'.items a = some it ∧ it.owner = true ∧ it.event.edge = false) :
    { w with loop := s', held := held }.Sound due where
  live := hlive
  aimed := haimed
  crashed := h.crashed
  called := by
    intro a it' ha hit'
    obtain ⟨it, hit, he, hobj, -⟩ := hc.items a it' hit'
    rw [← he, ← hobj]
    exact h.called a it (hcalled a ha) hit
  awaited := by
    intro a it' d hit' hw hl
    obtain ⟨it, hit, he, hobj, ho⟩ := hc.items a it' hit'
    have hold := h.awaited a it d hit ⟨ho hw.owner, (congrArg Event.edge he).trans hw.edge,
        (congrArg Event.noflags? he).trans hw.noflags⟩ (by rw [hobj]; exact hl)
    rw [hobj] at hold
    exact hold.imp (hc.expects a it' hit' hw.owner hw.edge) id
  held := hheld

theorem Sound.held_of_carries (h : w.Sound due) (hc : Carries w.loop s')
    (hafter : w.loop.pc.after = true → s'.pc.after = true)
    (howned : ∀ a it, w.loop.items a = some it → it.owner = true → s'.items a = some it) :
    ∀ a, w.held = some a → s'.pc.after = true ∧ Expects s' a ∧
      ∃ it, s'.items a = some it ∧ it.owner = true ∧ it.event.edge = false := by
  intro a ha
  obtain ⟨hpc, hexp, it, hit, ho, he⟩ := h.held a ha
  have hit' := howned a it hit ho
  exact ⟨hafter hpc, hc.expects a it hit' ho he hexp, it, hit', ho, he⟩

theorem Sound.held_of_user (h : w.Sound due) (huser : w.loop.pc.user = true) : w.held = none := by
  cases hheld : w.held with
  | none => rfl
  | some a =>
    have hafter := Pc.user_of_after (h.held a hheld).1
    cases hafter.symm.trans huser

theorem Sound.loopStep {l : EventLoop.Label} (h : w.Sound none)
    (hok : EventLoop.OnceNotProcessed w.loop l) (hs : w.loopStep l = some w') : w'.Sound none := by
  have hstep : ∀ {s'}, EventLoop.step w.loop l = some s' →
      Live s' ∧ EventLoop.transition w.loop l = some s' := by
    intro s' hs
    exact ⟨h.live.step hok hs, (step_of_live h.live).symm.trans hs⟩
  have hnone : ∀ {s' : State}, ∀ a, (none : Option Addr) = some a → s'.pc.after = true ∧
      Expects s' a ∧ ∃ it, s'.items a = some it ∧ it.owner = true ∧ it.event.edge = false :=
    fun _ ha => absurd ha (by simp)
  cases l with
  | level level => exact absurd hs (by simp [World.loopStep])
  | call c =>
    by_cases hc : ∀ object event a level, c ≠ .objectSubscribe object event a level
    · have hs : (EventLoop.step w.loop (.call c)).map (fun s => { w with loop := s }) = some w' := by
        cases c with
        | objectSubscribe object event a level => exact absurd rfl (hc object event a level)
        | _ => exact hs
      obtain ⟨s', ht, rfl⟩ := map_eq_some_iff.mp hs
      obtain ⟨hlive, ht⟩ := hstep ht
      change (if w.loop.pc.user = true then _ else none) = some s' at ht
      obtain ⟨huser, ht⟩ := ite_none_right_eq_some.mp ht
      obtain ⟨hcarries, hpc⟩ := call_spec h.live hc ht
      refine h.of_carries hlive (h.aimed.of_pc hcarries hpc) hcarries (fun a ha => hpc ▸ ha)
        fun a ha => ?_
      exact absurd ((h.held_of_user huser).symm.trans ha) (by simp)
    · push Not at hc
      obtain ⟨object, event, a, level, rfl⟩ := hc
      exact absurd hs (by simp [World.loopStep])
  | outside o =>
    obtain ⟨s', ht, rfl⟩ := map_eq_some_iff.mp hs
    obtain ⟨hlive, ht⟩ := hstep ht
    obtain ⟨hcarries, hitems, hpc⟩ := outside_spec h.live ht
    exact h.of_carries hlive (h.aimed.of_pc hcarries hpc) hcarries (fun a ha => hpc ▸ ha)
      (h.held_of_carries hcarries (fun hafter => hpc ▸ hafter) fun a it hit _ => hitems ▸ hit)
  | run =>
    obtain ⟨s', ht, rfl⟩ := map_eq_some_iff.mp hs
    obtain ⟨hlive, ht⟩ := hstep ht
    rw [EventLoop.transition] at ht
    split at ht
    case h_1 hpc =>
      obtain rfl := some.inj ht
      refine h.of_carries hlive (h.aimed.of_idle rfl rfl rfl) (.of_same rfl rfl fun a ha => ?_)
        (fun a ha => absurd ha (by simp [Pc.called?])) hnone
      rw [hpc] at ha
      exact absurd ha (by simp [Pc.checks?])
    case h_2 => cases ht
  | wake =>
    obtain ⟨s', ht, rfl⟩ := map_eq_some_iff.mp hs
    obtain ⟨hlive, ht⟩ := hstep ht
    rw [EventLoop.transition] at ht
    split at ht
    case h_1 hpc =>
      obtain ⟨hcarries, haimed, hlevel⟩ := wake_spec h.aimed hpc ht
      refine h.of_carries hlive haimed hcarries (fun a ha => ?_) hnone
      cases hlevel.symm.trans (Pc.level?_of_called? ha)
    case h_2 => cases ht
  | timeout callback =>
    obtain ⟨s', ht, rfl⟩ := map_eq_some_iff.mp hs
    obtain ⟨hlive, ht⟩ := hstep ht
    rw [EventLoop.transition] at ht
    split at ht
    case h_1 hpc =>
      obtain ⟨hcarries, haimed, hlevel⟩ := timeout_spec h.aimed hpc ht
      refine h.of_carries hlive haimed hcarries (fun a ha => ?_) hnone
      cases hlevel.symm.trans (Pc.level?_of_called? ha)
    case h_2 => cases ht
  | loop =>
    obtain ⟨s', ht, rfl⟩ := map_eq_some_iff.mp hs
    obtain ⟨hlive, ht⟩ := hstep ht
    have hspec := loopStep_spec h.live h.aimed hok ht
    refine h.of_carries hlive hspec.aimed hspec.carries (fun a ha => ?_)
      (h.held_of_carries hspec.carries hspec.after hspec.owned)
    cases hspec.called.symm.trans ha
  | ret =>
    obtain ⟨s', ht, rfl⟩ := map_eq_some_iff.mp hs
    obtain ⟨hlive, ht⟩ := hstep ht
    rw [EventLoop.transition] at ht
    split at ht
    case h_1 frame hpc =>
      obtain rfl := some.inj ht
      obtain ⟨hcarries, haimed⟩ := callbackReturn_spec h.aimed hpc
      refine h.of_carries hlive haimed hcarries (fun a ha => ?_) fun a ha => ?_
      · cases frame <;> exact absurd ha (by simp [callbackReturn, Pc.called?])
      · have huser : w.loop.pc.user = true := by rw [hpc]; rfl
        exact absurd ((h.held_of_user huser).symm.trans ha) (by simp)
    case h_2 => cases ht

theorem Sound.notify (h : w.Sound (some (object, d))) (hs : w.notify object d = some w') :
    w'.Sound none := by
  obtain ⟨s', ht, rfl⟩ := map_eq_some_iff.mp hs
  have hlive : Live s' := h.live.step (l := .outside (.linkNotify object d.event)) trivial ht
  rw [step_of_live h.live] at ht
  obtain ⟨hcarries, hitems, hpc, hlinked⟩ := linkNotify_spec h.live (notified?_event d) ht
  have hsound := h.of_carries hlive (h.aimed.of_pc hcarries hpc) hcarries (fun a ha => hpc ▸ ha)
    (h.held_of_carries hcarries (fun hafter => hpc ▸ hafter) fun a it hit _ => hitems ▸ hit)
  refine ⟨hlive, hsound.aimed, hsound.crashed, hsound.called, fun a it d' hit hw hl => ?_,
    hsound.held⟩
  refine (hsound.awaited a it d' hit hw hl).elim .inl fun hrest => ?_
  refine hrest.elim (fun hthread => .inr (.inl hthread)) fun hdue => .inl ?_
  obtain ⟨rfl, rfl⟩ := Prod.mk.inj (some.inj hdue)
  obtain ⟨-, d', hd', hl'⟩ := h.live.linked.owned a it (hitems ▸ hit) hw.owner
  obtain rfl := some.inj (hw.noflags.symm.trans hd')
  exact .inl (hlinked a hl')

theorem Sound.take {e : Effect} (h : w.Sound none)
    (hraises : ∀ d, e.object.Level d → (w.objects object).Level d ∨ e.Notifies object d)
    (hthreads : ∀ t object' d, (t, .linkNotify object' d) ∈ w.threads →
      (t, .linkNotify object' d) ∈ e.threads) (hs : w.take object e = some w') :
    w'.Sound none := by
  have hsound : { w with
      objects := update w.objects object e.object
      threads := e.threads }.Sound (e.notified.map fun d => (object, d)) := by
    refine ⟨h.live, h.aimed, h.crashed, h.called, fun a it d hit hw hl => ?_, h.held⟩
    have hold : (w.objects it.object).Level d → Expects w.loop a ∨
        (∃ t, (t, .linkNotify it.object d) ∈ e.threads) ∨
          e.notified.map (fun d => (object, d)) = some (it.object, d) := by
      intro hl
      refine (h.awaited a it d hit hw hl).imp id fun hrest => .inl ?_
      obtain ⟨t, ht⟩ | hdue := hrest
      · exact ⟨t, hthreads t _ d ht⟩
      · cases hdue
    by_cases hobj : it.object = object
    · subst hobj
      change (update w.objects it.object e.object it.object).Level d at hl
      rw [update_self] at hl
      rcases hraises d hl with hl | hn | hn
      · exact hold hl
      · exact .inr (.inr (congrArg _ hn))
      · exact .inr (.inl hn)
    · change (update w.objects object e.object it.object).Level d at hl
      rw [update_of_ne hobj] at hl
      exact hold hl
  unfold World.take at hs
  dsimp only at hs
  split at hs
  · next d hd =>
    rw [hd] at hsound
    exact hsound.notify hs
  · next hnone =>
    rw [hnone] at hsound
    exact some.inj hs ▸ hsound

theorem event_eq {e : Event} (hd : e.noflags? = some d) (hedge : e.edge = false)
    (honce : e.once = false) : e = d.event := by
  obtain ⟨eventIn, eventOut, edge, once⟩ := e
  obtain rfl : edge = false := hedge
  obtain rfl : once = false := honce
  cases eventIn <;> cases eventOut <;> cases d <;> first | rfl | cases hd

theorem Sound.subscribe (h : w.Sound none) (hs : w.subscribe object event a = some w') :
    w'.Sound none := by
  unfold World.subscribe at hs
  split at hs
  · next level hlevel =>
    obtain ⟨s', ht, rfl⟩ := map_eq_some_iff.mp hs
    have hlive : Live s' := h.live.step (l := .call (.objectSubscribe object event a level)) trivial ht
    rw [step_of_live h.live] at ht
    obtain ⟨huser, ht⟩ := ite_none_right_eq_some.mp ht
    obtain ⟨d, -, ha, hd, -, hs'⟩ := objectSubscribe_cases ht
    -- the level is asked for with the word of the direction
    have hword : event.noflags = d.event := event_eq hd rfl rfl
    rw [hword, Primitive.getLevel_event] at hlevel
    obtain rfl := some.inj hlevel
    have hitems : s'.items =
        update w.loop.items a (some ⟨true, event, object, w.loop.allocated⟩) := by
      rw [hs']
      split
      · rw [itemNotify_items]
        rfl
      · rfl
    have hpc : s'.pc = w.loop.pc := by
      rw [hs']
      split
      · rw [itemNotify, itemEnqueue_of_owned (update_self ..) rfl]
        rfl
      · rfl
    have hwaiting : ∀ b, b ∈ w.loop.waitingList → b ∈ s'.waitingList := by
      intro b hb
      rw [hs']
      split
      · rw [itemNotify, itemEnqueue_of_owned (update_self ..) rfl]
        exact mem_pushWaiting.mpr (.inl hb)
      · exact hb
    -- what the loop is at is another item
    have hother : ∀ b it, w.loop.pc.item? = some b → s'.items b = some it →
        w.loop.items b = some it := by
      intro b it hb hit
      rw [hitems] at hit
      obtain ⟨rfl, -⟩ | ⟨-, hit⟩ := Ledger.update_cases hit
      · obtain ⟨_, hold, -⟩ := h.live.processed b hb
        cases ha.symm.trans hold
      · exact hit
    refine ⟨hlive, ⟨fun b it hit => ?_, fun b it hb hit => ?_, fun b it hb hit => ?_⟩, h.crashed,
      fun b it hb hit => ?_, fun b it d' hit hw hl => ?_, fun b hb => ?_⟩
    · rw [hitems] at hit
      obtain ⟨-, hv⟩ | ⟨-, hit⟩ := Ledger.update_cases hit
      · exact ⟨d, some.inj hv ▸ hd⟩
      · exact h.aimed.directed b it hit
    · rw [hpc] at hb
      exact h.aimed.plain b it hb (hother b it (Pc.item?_of_plain? hb) hit)
    · rw [hpc] at hb
      exact h.aimed.level b it hb (hother b it (Pc.item?_of_level? hb) hit)
    · change s'.pc.called? = some b at hb
      rw [hpc] at hb
      exact h.called b it hb (hother b it (Pc.item?_of_level? (Pc.level?_of_called? hb)) hit)
    · change s'.items b = some it at hit
      rw [hitems] at hit
      obtain ⟨rfl, hv⟩ | ⟨-, hit⟩ := Ledger.update_cases hit
      · obtain rfl := some.inj hv
        obtain rfl := some.inj (hd.symm.trans hw.noflags)
        have hedge : event.edge = false := hw.edge
        have hl : (w.objects object).Level d := hl
        refine .inl (.inl ?_)
        change b ∈ s'.waitingList
        rw [hs', if_pos (by rw [hedge, decide_eq_true hl]; rfl), itemNotify,
          itemEnqueue_of_owned (update_self ..) rfl]
        exact mem_pushWaiting.mpr (.inr rfl)
      · refine (h.awaited b it d' hit hw hl).imp (fun hexp => ?_) id
        exact hexp.imp (hwaiting b) fun hc => (congrArg Pc.checks? hpc).trans hc
    · exact absurd ((h.held_of_user huser).symm.trans hb) (by simp)
  · cases hs

theorem asks?_cases {pc : Pc} (h : pc.asks? = some a) :
    ∃ rest, pc = .getLevel a rest ∨ pc = .getLevelAgain a rest := by
  cases pc with
  | getLevel b rest => exact ⟨rest, .inl (some.inj h ▸ rfl)⟩
  | getLevelAgain b rest => exact ⟨rest, .inr (some.inj h ▸ rfl)⟩
  | _ => exact absurd h (by simp [Pc.asks?])

theorem Sound.getLevel (h : w.Sound none) (hs : w.getLevel = some w') : w'.Sound none := by
  unfold World.getLevel at hs
  split at hs
  · cases hs
  next a hasks =>
  obtain ⟨rest, hpc⟩ := asks?_cases hasks
  have hchecks : w.loop.pc.checks? = some a := by rcases hpc with hpc | hpc <;> rw [hpc] <;> rfl
  have hlevel : w.loop.pc.level? = some a := by rcases hpc with hpc | hpc <;> rw [hpc] <;> rfl
  obtain ⟨it, hit, -⟩ := h.live.processed a (Pc.item?_of_level? hlevel)
  obtain ⟨d, hd⟩ := h.aimed.directed a it hit
  have hedge := h.aimed.level a it hlevel hit
  have hword : it.event = d.event :=
    event_eq hd hedge (h.aimed.plain a it (Pc.plain?_of_level? hlevel) hit)
  simp only [hit] at hs
  rw [hword, Primitive.getLevel_event] at hs
  obtain ⟨s', ht, rfl⟩ := map_eq_some_iff.mp hs
  have hlive : Live s' := h.live.step
    (l := .level (decide ((w.objects it.object).Level d))) trivial ht
  rw [step_of_live h.live] at ht
  change levelStep w.loop _ = some s' at ht
  unfold levelStep at ht
  by_cases hl : (w.objects it.object).Level d
  · -- the callback is called, or the item will be put back
    rw [decide_eq_true hl] at ht
    rcases hpc with hpc | hpc
    · simp only [hpc, deref, hit, if_true] at ht
      obtain rfl := some.inj ht
      have hcarries : Carries w.loop { w.loop with pc := .callback (.levelEvent a rest) } :=
        .of_same rfl rfl fun b hb => hchecks.symm.trans hb
      have haimed : Aimed { w.loop with pc := .callback (.levelEvent a rest) } :=
        h.aimed.of_carries hcarries (fun b hb => .inl ((Pc.plain?_of_level? hlevel).trans hb))
          (fun b hb => .inl (hlevel.trans hb))
      refine ⟨hlive, haimed, h.crashed, fun b it' hb hit' => ?_, fun b it' d' hit' hw hl' => ?_,
        fun b hb => ?_⟩
      · obtain rfl := some.inj hb
        obtain rfl := some.inj (hit.symm.trans hit')
        exact ⟨d, w.objects it.object, hd, rfl, hl⟩
      · exact (h.awaited b it' d' hit' hw hl').imp (hcarries.expects b it' hit' hw.owner hw.edge) id
      · change (if w.loop.pc.again && w.holds it then some a else none) = some b at hb
        rw [hpc] at hb
        exact absurd hb (by simp [Pc.again])
    · simp only [hpc, deref, hit, if_true] at ht
      obtain rfl := some.inj ht
      have hcarries : Carries w.loop { w.loop with pc := .processed a rest .incomplete } :=
        .of_same rfl rfl fun b hb => hchecks.symm.trans hb
      refine ⟨hlive, h.aimed.of_idle rfl rfl rfl, h.crashed, fun b _ hb => ?_,
        fun b it' d' hit' hw hl' => ?_, fun b hb => ?_⟩
      · exact absurd hb (by simp [Pc.called?])
      · exact (h.awaited b it' d' hit' hw hl').imp (hcarries.expects b it' hit' hw.owner hw.edge) id
      · obtain ⟨hholds, hb⟩ := ite_none_right_eq_some.mp hb
        obtain rfl := some.inj hb
        rw [hpc, Pc.again, Bool.true_and, World.holds, Bool.and_eq_true] at hholds
        exact ⟨rfl, .inr rfl, it, hit, hholds.1, hedge⟩
  · -- nobody waits for this level any more
    rw [decide_eq_false hl] at ht
    have hs' : s' = { w.loop with pc := .processed a rest .complete } := by
      rcases hpc with hpc | hpc
      · simp only [hpc, deref, hit, Bool.false_eq_true, if_false] at ht
        exact (some.inj ht).symm
      · simp only [hpc, deref, hit, Bool.false_eq_true, if_false] at ht
        exact (some.inj ht).symm
    subst hs'
    refine ⟨hlive, h.aimed.of_idle rfl rfl rfl, h.crashed, fun b _ hb => ?_,
      fun b it' d' hit' hw hl' => ?_, fun b hb => ?_⟩
    · exact absurd hb (by simp [Pc.called?])
    · refine (h.awaited b it' d' hit' hw hl').imp (fun hexp => ?_) id
      refine hexp.elim .inl fun hc => ?_
      obtain rfl := some.inj (hchecks.symm.trans hc)
      obtain rfl := some.inj (hit.symm.trans hit')
      obtain rfl := some.inj (hd.symm.trans hw.noflags)
      exact absurd hl' hl
    · obtain ⟨hholds, -⟩ := ite_none_right_eq_some.mp hb
      rw [Bool.and_eq_true, World.holds, hd, Bool.and_eq_true] at hholds
      exact absurd (of_decide_eq_true hholds.2.2) hl

theorem Sound.step {l : Label} (h : w.Sound none) (hok : OnceNotProcessed w l)
    (hs : machine.step w l = some w') : w'.Sound none := by
  change World.step w l = some w' at hs
  unfold World.step at hs
  split at hs
  · cases hs
  split at hs
  · cases hs
  cases l with
  | loop l => exact h.loopStep hok hs
  | subscribe object event a => exact h.subscribe hs
  | getLevel => exact h.getLevel hs
  | operation t object op =>
    obtain ⟨-, hs⟩ := ite_none_left_eq_some.mp hs
    obtain ⟨e, he, hs⟩ := bind_eq_some_iff.mp hs
    exact h.take (fun d hl => operation_raises he hl)
      (fun t object' d ht => operation_threads he ht) hs
  | linkNotify t object d =>
    obtain ⟨hmem, hs⟩ := ite_none_right_eq_some.mp hs
    -- the notification of this thread is the one that is due
    have hdue : { w with threads := w.threads.erase (t, .linkNotify object d) }.Sound
        (some (object, d)) := by
      refine ⟨h.live, h.aimed, h.crashed, h.called, fun a it d' hit hw hl => ?_, h.held⟩
      refine (h.awaited a it d' hit hw hl).imp id fun hrest => ?_
      obtain ⟨t', ht'⟩ | hnone := hrest
      · by_cases heq : (t', Activity.linkNotify it.object d') = (t, .linkNotify object d)
        · obtain ⟨-, heq⟩ := Prod.mk.inj heq
          obtain ⟨hobj, hd⟩ := Activity.linkNotify.inj heq
          exact .inr (by rw [hobj, hd])
        · exact .inl ⟨t', (mem_erase_of_ne heq).mpr ht'⟩
      · exact absurd hnone (by simp)
    exact hdue.notify hs
  | waitTimeout t object wait =>
    obtain ⟨hmem, hs⟩ := ite_none_right_eq_some.mp hs
    split at hs
    · next bits hbits =>
      refine h.take (fun d hl => ?_) (fun t' object' d ht' => ?_) hs
      · rw [hbits]
        exact waitTimeout_raises hl
      · have hmem' : (t', Activity.linkNotify object' d) ∈
            w.threads.erase (t, .waitBits object wait) :=
          (mem_erase_of_ne (by simp)).mpr ht'
        unfold EventLoop.waitTimeout
        split
        · exact mem_cons_of_mem _ hmem'
        · exact hmem'
    · cases hs

/-- Looking at a level never crashes; a level-triggered callback runs on an item whose level was
found to hold; and between the iterations every item whose level holds, or held after its callback,
is in the waiting list, unless a thread is about to notify it. -/
structure Dispatches (w : World) : Prop where
  crashed : w.crashed = false
  fault : w.loop.fault = false
  processed : ∀ a, w.loop.pc.item? = some a → w.loop.items a ≠ none
  called : ∀ a, w.loop.pc.called? = some a → ∃ it d o, w.loop.items a = some it ∧
    it.event.edge = false ∧ it.event.noflags? = some d ∧ w.looked = some (it.object, o) ∧ o.Level d
  again : ∀ a, w.held = some a → w.loop.pc = .waiting → a ∈ w.loop.waitingList
  waiting : ∀ a it d, w.loop.items a = some it → it.WaitsFor d → w.loop.pc.item? = none →
    (w.objects it.object).Level d → (∀ t, (t, .linkNotify it.object d) ∉ w.threads) →
    a ∈ w.loop.waitingList

theorem item?_of_checks? {pc : Pc} (h : pc.checks? = some a) : pc.item? = some a := by
  cases pc with
  | callback frame =>
    cases frame with
    | levelEvent b rest => exact h
    | _ => exact absurd h (by simp [Pc.checks?])
  | processed b rest status =>
    cases status with
    | incomplete => exact h
    | _ => exact absurd h (by simp [Pc.checks?])
  | finish b rest status =>
    cases status with
    | incomplete => exact h
    | _ => exact absurd h (by simp [Pc.checks?])
  | processEvent b rest => exact h
  | setCurrentItem b rest => exact h
  | getLevel b rest => exact h
  | getLevelAgain b rest => exact h
  | _ => exact absurd h (by simp [Pc.checks?])

theorem Sound.dispatches (h : w.Sound none) : w.Dispatches where
  crashed := h.crashed
  fault := h.live.linked.fault
  processed := h.live.itemsLive.processed
  called := by
    intro a ha
    have hlevel := Pc.level?_of_called? ha
    obtain ⟨it, hit, -⟩ := h.live.processed a (Pc.item?_of_level? hlevel)
    obtain ⟨d, o, hd, hlooked, hl⟩ := h.called a it ha hit
    exact ⟨it, d, o, hit, h.aimed.level a it hlevel hit, hd, hlooked, hl⟩
  again := by
    intro a ha hpc
    refine (h.held a ha).2.1.elim id fun hc => ?_
    rw [hpc] at hc
    exact absurd hc (by simp [Pc.checks?])
  waiting := by
    intro a it d hit hw hpc hl hnone
    obtain (hmem | hc) | ⟨t, ht⟩ | hdue := h.awaited a it d hit hw hl
    · exact hmem
    · cases hpc.symm.trans (item?_of_checks? hc)
    · exact absurd ht (hnone t)
    · cases hdue

theorem Sound.once_freed {l : Label} (h : w.Sound none) (hok : ¬ OnceNotProcessed w l)
    (hs : machine.step w l = some w') : ¬ w'.Dispatches := by
  change World.step w l = some w' at hs
  unfold World.step at hs
  split at hs
  · cases hs
  split at hs
  · cases hs
  cases l with
  | loop l =>
    cases l with
    | loop =>
      obtain ⟨s', ht, rfl⟩ := map_eq_some_iff.mp hs
      obtain ⟨a, ha, hnone⟩ := h.live.once_freed (l := .loop) hok ht
      exact fun hd => hd.processed a ha hnone
    | _ => exact absurd trivial hok
  | _ => exact absurd trivial hok

/-- Level-triggered events are dispatched all along a run exactly when no event of an item with
the once flag is processed in it. -/
theorem dispatches_iff {objects : Object → Primitive} {ls : List Label}
    (h : machine.run (World.alloc objects) ls = some w) :
    (∀ pre u, pre <+: ls → machine.run (World.alloc objects) pre = some u → u.Dispatches) ↔
      machine.Meets OnceNotProcessed (World.alloc objects) ls :=
  (machine.meets_iff_always (I := fun w => w.Sound none)
    (fun _ _ _ hI hok hs => hI.step hok hs) (fun _ hI => hI.dispatches)
    (fun _ _ _ hI hok hs => hI.once_freed hok hs) (sound_alloc objects) h).symm

def emptyQueues (_ : Object) : Primitive := .messageQueue ⟨2, 0, Nat.zero_le 2⟩

/-- Another thread puts two messages, and the callback gets one of them. -/
def oneOfTwo : List Label :=
  [.subscribe 5 ⟨true, false, false, false⟩ 1, .loop .run,
    .operation 1 5 .messageQueuePut, .linkNotify 1 5 .In,
    .operation 1 5 .messageQueuePut, .linkNotify 1 5 .In,
    .loop .wake, .loop .loop, .loop .loop, .loop .loop, .getLevel,
    .operation loopThread 5 .messageQueueGet, .linkNotify loopThread 5 .Out, .loop .ret,
    .getLevel, .loop .loop, .loop .loop, .loop .loop, .loop .loop, .loop .loop]

theorem dispatches_iff_oneOfTwo : ∃ w, machine.run (World.alloc emptyQueues) oneOfTwo = some w ∧
    w.loop.pc = .waiting ∧ w.loop.waitingList = [1] ∧
    ((∀ pre u, pre <+: oneOfTwo → machine.run (World.alloc emptyQueues) pre = some u →
      u.Dispatches) ↔ machine.Meets OnceNotProcessed (World.alloc emptyQueues) oneOfTwo) :=
  ⟨_, rfl, rfl, rfl, dispatches_iff rfl⟩

def onceSubscribed : List Label :=
  [.operation 1 5 .messageQueuePut, .linkNotify 1 5 .In,
    .subscribe 5 ⟨true, false, false, true⟩ 1, .loop .run, .loop .wake, .loop .loop, .loop .loop,
    .loop .loop]

theorem once_not_dispatched : ¬ ∀ objects ls w,
    machine.run (World.alloc objects) ls = some w → w.Dispatches := by
  intro hall
  have hdispatches := hall emptyQueues onceSubscribed _ rfl
  exact Bool.false_ne_true hdispatches.fault.symm

end World

end NikitaFirmware.EventLoop
