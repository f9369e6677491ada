import NikitaFirmware.Foundations.Ledger
import NikitaFirmware.EventLoop.Loop

/-!
# The lifetime of items

An item belongs to the loop from its subscription until `furi_event_loop_unsubscribe`, which
frees it, or leaves that to the iteration which is processing it. The once flag has the loop
itself unsubscribe the item before it becomes `current_item`, and so before it is used.
-/

namespace NikitaFirmware.EventLoop
open Foundations List Option Function

/-- The tree, the links and the waiting list refer to items of the loop, and every item of the
loop is in the tree and in the link of its object. -/
structure Linked (s : State) : Prop where
  tree : ∀ object a, s.tree object = some a →
    ∃ it, s.items a = some it ∧ it.owner = true ∧ it.object = object
  link : ∀ object d a, s.link object d = .item a →
    ∃ it, s.items a = some it ∧ it.owner = true ∧ it.object = object ∧ it.event.noflags? = some d
  owned : ∀ a it, s.items a = some it → it.owner = true → s.tree it.object = some a ∧
      ∃ d, it.event.noflags? = some d ∧ s.link it.object d = .item a
  waiting : ∀ a, a ∈ s.waitingList → ∃ it, s.items a = some it ∧ it.owner = true
  nodup : s.waitingList.Nodup
  ledger : Ledger Item.serial s.items s.allocated s.freed
  fault : s.fault = false

/-- Nothing that concerns items changes. -/
structure SameItems (s s' : State) : Prop where
  items : s'.items = s.items
  tree : s'.tree = s.tree
  link : s'.link = s.link
  waitingList : s'.waitingList = s.waitingList
  allocated : s'.allocated = s.allocated
  freed : s'.freed = s.freed
  fault : s'.fault = s.fault

variable {s s' : State} {a b : Addr} {object : Object} {event : Event} {d : Direction}
  {rest : Flags} {f : Flag} {it : Item}

theorem SameItems.of_eq
    (h : (s'.items, s'.tree, s'.link, s'.waitingList, s'.allocated, s'.freed, s'.fault) =
      (s.items, s.tree, s.link, s.waitingList, s.allocated, s.freed, s.fault)) :
    SameItems s s' := by
  simp only [Prod.mk.injEq] at h
  obtain ⟨h₁, h₂, h₃, h₄, h₅, h₆, h₇⟩ := h
  exact ⟨h₁, h₂, h₃, h₄, h₅, h₆, h₇⟩

theorem Linked.of_same (h : Linked s) (hs : SameItems s s') : Linked s' where
  tree := fun o a ht => hs.items ▸ h.tree o a (hs.tree ▸ ht)
  link := fun o d a hl => hs.items ▸ h.link o d a (hs.link ▸ hl)
  owned := fun a it hit ho => hs.tree ▸ hs.link ▸ h.owned a it (hs.items ▸ hit) ho
  waiting := fun a ha => hs.items ▸ h.waiting a (hs.waitingList ▸ ha)
  nodup := hs.waitingList ▸ h.nodup
  ledger := hs.items ▸ hs.allocated ▸ hs.freed ▸ h.ledger
  fault := hs.fault.trans h.fault

theorem linked_alloc : Linked alloc where
  tree := fun _ _ h => absurd h (by simp [alloc])
  link := fun _ _ _ h => absurd h (by simp [alloc])
  owned := fun _ _ h => absurd h (by simp [alloc])
  waiting := fun _ h => absurd h not_mem_nil
  nodup := nodup_nil
  ledger := Ledger.empty
  fault := rfl

theorem Linked.pushWaiting (h : Linked s) (hit : s.items a = some it) (ho : it.owner = true) :
    Linked (pushWaiting s a) where
  tree := h.tree
  link := h.link
  owned := h.owned
  waiting := by
    intro b hb
    change b ∈ (if a ∈ s.waitingList then s.waitingList else s.waitingList ++ [a]) at hb
    split at hb
    · exact h.waiting b hb
    · rcases mem_append.mp hb with hb | hb
      · exact h.waiting b hb
      · rw [mem_singleton.mp hb]
        exact ⟨it, hit, ho⟩
  nodup := by
    change (if a ∈ s.waitingList then s.waitingList else s.waitingList ++ [a]).Nodup
    split
    · exact h.nodup
    case isFalse hmem =>
      exact nodup_append.mpr ⟨h.nodup, nodup_singleton a, fun x hx y hy hxy =>
        hmem (mem_singleton.mp hy ▸ hxy ▸ hx)⟩
  ledger := h.ledger
  fault := h.fault

theorem itemEnqueue_of_owned (hit : s.items a = some it) (ho : it.owner = true) :
    itemEnqueue s a = pushWaiting s a := by
  rw [itemEnqueue, hit]
  exact if_pos ho

theorem Linked.itemNotify (h : Linked s) (hit : s.items a = some it) (ho : it.owner = true) :
    Linked (itemNotify s a) := by
  rw [EventLoop.itemNotify, itemEnqueue_of_owned hit ho]
  exact (h.pushWaiting hit ho).of_same (.of_eq rfl)

theorem itemNotify_items (s : State) (a : Addr) : (itemNotify s a).items = s.items := by
  unfold itemNotify itemEnqueue
  split
  · split <;> rfl
  · rfl

theorem link_update_cases {link : Object → Direction → LinkItem} {v w : LinkItem}
    {object' : Object} {d' : Direction}
    (h : update link object (update (link object) d v) object' d' = w) :
    object' = object ∧ d' = d ∧ v = w ∨ (object' ≠ object ∨ d' ≠ d) ∧ link object' d' = w := by
  by_cases ho : object' = object
  · subst ho
    rw [update_self] at h
    by_cases hd : d' = d
    · subst hd
      rw [update_self] at h
      exact .inl ⟨rfl, rfl, h⟩
    · rw [update_of_ne hd] at h
      exact .inr ⟨.inr hd, h⟩
  · rw [update_of_ne ho] at h
    exact .inr ⟨.inl ho, h⟩

theorem link_update_of_ne {link : Object → Direction → LinkItem} {v : LinkItem}
    {object' : Object} {d' : Direction} (h : object' ≠ object ∨ d' ≠ d) :
    update link object (update (link object) d v) object' d' = link object' d' := by
  rcases link_update_cases (rfl : update link object
    (update (link object) d v) object' d' = _) with ⟨ho, hd, -⟩ | ⟨-, hl⟩
  · exact absurd h (not_or.mpr ⟨not_not.mpr ho, not_not.mpr hd⟩)
  · exact hl.symm

theorem Linked.addItem (h : Linked s) (htree : s.tree object = none) (ha : s.items a = none)
    (hd : event.noflags? = some d) (hlink : s.link object d = .null) :
    Linked (addItem s object event a d) where
  tree := by
    intro o b hb
    obtain ⟨rfl, hv⟩ | ⟨-, hb⟩ := Ledger.update_cases hb
    · obtain rfl := some.inj hv
      exact ⟨_, update_self .., rfl, rfl⟩
    · obtain ⟨it, hit, hrest⟩ := h.tree o b hb
      refine ⟨it, ?_, hrest⟩
      change update s.items a _ b = some it
      rw [update_of_ne, hit]
      rintro rfl
      cases ha.symm.trans hit
  link := by
    intro o d' b hb
    obtain ⟨rfl, rfl, hv⟩ | ⟨-, hl⟩ := link_update_cases hb
    · obtain rfl := LinkItem.item.inj hv
      exact ⟨_, update_self .., rfl, rfl, hd⟩
    · obtain ⟨it, hit, hrest⟩ := h.link o d' b hl
      refine ⟨it, ?_, hrest⟩
      change update s.items a _ b = some it
      rw [update_of_ne, hit]
      rintro rfl
      cases ha.symm.trans hit
  owned := by
    intro b it hit ho
    obtain ⟨rfl, hv⟩ | ⟨-, hit⟩ := Ledger.update_cases hit
    · obtain rfl := some.inj hv
      refine ⟨update_self .., d, hd, ?_⟩
      show update s.link object (update (s.link object) d (.item b)) object d = .item b
      rw [update_self, update_self]
    · obtain ⟨ht, d', hd', hl⟩ := h.owned b it hit ho
      have hne : it.object ≠ object := by
        intro heq
        cases htree.symm.trans (heq ▸ ht)
      exact ⟨(update_of_ne hne ..).trans ht, d', hd', (link_update_of_ne (.inl hne)).trans hl⟩
  waiting := by
    intro b hb
    obtain ⟨it, hit, ho⟩ := h.waiting b hb
    refine ⟨it, ?_, ho⟩
    change update s.items a _ b = some it
    rw [update_of_ne, hit]
    rintro rfl
    cases ha.symm.trans hit
  nodup := h.nodup
  ledger := h.ledger.allocate ha rfl
  fault := h.fault

theorem Linked.unlinkItem (h : Linked s) (hit : s.items a = some it) (ho : it.owner = true)
    (hd : it.event.noflags? = some d) {v : Option Item} {freed : List Nat}
    (hv : ∀ it', v = some it' → it'.owner = false)
    (hledger : Ledger Item.serial (update s.items a v) s.allocated freed) :
    Linked { unlinkItem s it.object a d with
      items := update s.items a v
      freed := freed } := by
  obtain ⟨ht, d', hd', hl⟩ := h.owned a it hit ho
  obtain rfl := some.inj (hd.symm.trans hd')
  -- another item that is linked stays where it is
  have hkeep : ∀ b it', b ≠ a → s.items b = some it' → update s.items a v b = some it' := by
    intro b it' hne hb
    rw [update_of_ne hne, hb]
  refine ⟨fun o b hb => ?_, fun o d' b hb => ?_, fun b it' hb ho' => ?_, fun b hb => ?_, ?_,
    hledger, h.fault⟩
  · obtain ⟨-, hnone⟩ | ⟨hob, hb⟩ := Ledger.update_cases hb
    · exact absurd hnone (by simp)
    · obtain ⟨it', hit', ho', hobj⟩ := h.tree o b hb
      refine ⟨it', hkeep b it' ?_ hit', ho', hobj⟩
      rintro rfl
      rw [hit] at hit'
      exact hob (some.inj hit' ▸ hobj.symm)
  · obtain ⟨-, -, hnull⟩ | ⟨hne, hl'⟩ := link_update_cases hb
    · exact absurd hnull (by simp)
    · obtain ⟨it', hit', ho', hobj, hdir⟩ := h.link o d' b hl'
      refine ⟨it', hkeep b it' ?_ hit', ho', hobj, hdir⟩
      rintro rfl
      obtain rfl := some.inj (hit.symm.trans hit')
      obtain rfl := some.inj (hd.symm.trans hdir)
      exact hne.elim (fun hne => hne hobj.symm) (fun hne => hne rfl)
  · obtain ⟨-, hv'⟩ | ⟨hne, hb⟩ := Ledger.update_cases hb
    · exact absurd ((hv it' hv').symm.trans ho') Bool.false_ne_true
    · obtain ⟨ht', d', hd', hl'⟩ := h.owned b it' hb ho'
      have hobj : it'.object ≠ it.object := by
        intro heq
        rw [heq, ht] at ht'
        exact hne (some.inj ht').symm
      exact ⟨(update_of_ne hobj ..).trans ht', d', hd', (link_update_of_ne (.inl hobj)).trans hl'⟩
  · obtain ⟨hba, hb⟩ := (List.Nodup.mem_erase_iff h.nodup).mp hb
    obtain ⟨it', hit', ho'⟩ := h.waiting b hb
    exact ⟨it', hkeep b it' hba hit', ho'⟩
  · exact h.nodup.erase a

def Pc.item? : Pc → Option Addr
  | .processEvent a _ | .setCurrentItem a _ | .getLevel a _ | .callback (.edgeEvent a _)
  | .callback (.levelEvent a _) | .getLevelAgain a _ | .processed a _ _ | .finish a _ _ => some a
  | _ => none

def Pc.current? : Pc → Option Addr
  | .getLevel a _ | .callback (.edgeEvent a _) | .callback (.levelEvent a _)
  | .getLevelAgain a _ | .processed a _ _ => some a
  | _ => none

/-- The owner that the item being processed is known to have, where no callback may have
unsubscribed it. -/
def Pc.owner? : Pc → Option Bool
  | .processEvent _ _ | .setCurrentItem _ _ | .finish _ _ .complete | .finish _ _ .incomplete =>
    some true
  | .processed _ _ .freeLater | .finish _ _ .freeLater => some false
  | _ => none

theorem Pc.item?_of_user {pc : Pc} (h : pc.user = true) : pc.item? = pc.current? := by
  cases pc with
  | callback frame => cases frame <;> rfl
  | idle => rfl
  | _ => exact absurd h Bool.false_ne_true

theorem Pc.owner?_of_user {pc : Pc} (h : pc.user = true) : pc.owner? = none := by
  cases pc with
  | callback frame => rfl
  | idle => rfl
  | _ => exact absurd h Bool.false_ne_true

/-- The items of the loop are linked, and the only other item is the one that is being
processed, when it was unsubscribed meanwhile. -/
structure Live (s : State) : Prop where
  linked : Linked s
  currentItem : s.currentItem = s.pc.current?
  processed : ∀ a, s.pc.item? = some a →
    ∃ it, s.items a = some it ∧ ∀ b, s.pc.owner? = some b → it.owner = b
  later : ∀ a it, s.items a = some it → it.owner = false → s.pc.item? = some a

theorem live_alloc : Live alloc where
  linked := linked_alloc
  currentItem := rfl
  processed := fun _ h => absurd h (by simp [alloc, Pc.item?])
  later := fun _ _ h => absurd h (by simp [alloc])

theorem Live.of_pc (h : Live s) (hs : SameItems s s') (hc : s'.currentItem = s'.pc.current?)
    (hitem : s'.pc.item? = s.pc.item?)
    (howner : ∀ a it b, s.pc.item? = some a → s.items a = some it →
      (∀ b, s.pc.owner? = some b → it.owner = b) → s'.pc.owner? = some b → it.owner = b) :
    Live s' where
  linked := h.linked.of_same hs
  currentItem := hc
  processed := by
    intro a ha
    rw [hitem] at ha
    obtain ⟨it, hit, ho⟩ := h.processed a ha
    exact ⟨it, hs.items ▸ hit, fun b hb => howner a it b ha hit ho hb⟩
  later := fun a it hit ho => hitem ▸ h.later a it (hs.items ▸ hit) ho

/-- The loop goes on at a place that names the same items and says nothing of their owners. -/
theorem Live.move (h : Live s) {p : Pc} (hpc : s.pc = p) (hs : SameItems s s')
    (hcur : s'.currentItem = s.currentItem) (hc : s'.pc.current? = p.current?)
    (hitem : s'.pc.item? = p.item?) (howner : s'.pc.owner? = none) : Live s' := by
  subst hpc
  exact h.of_pc hs (hcur.trans (h.currentItem.trans hc.symm)) hitem
    fun _ _ _ _ _ _ hb => absurd (howner.symm.trans hb) (by simp)

theorem Live.of_same (h : Live s) (hs : SameItems s s') (hpc : s'.pc = s.pc)
    (hc : s'.currentItem = s.currentItem) : Live s' :=
  h.of_pc hs (hc.trans (hpc ▸ h.currentItem)) (by rw [hpc])
    (fun _ _ b _ _ ho hb => ho b (hpc ▸ hb))

theorem Live.itemNotify (h : Live s) (hit : s.items a = some it) (ho : it.owner = true) :
    Live (itemNotify s a) where
  linked := h.linked.itemNotify hit ho
  currentItem := by
    rw [EventLoop.itemNotify, itemEnqueue_of_owned hit ho]
    exact h.currentItem
  processed := by
    rw [itemNotify_items]
    rw [EventLoop.itemNotify, itemEnqueue_of_owned hit ho]
    exact h.processed
  later := by
    rw [itemNotify_items]
    rw [EventLoop.itemNotify, itemEnqueue_of_owned hit ho]
    exact h.later

theorem Live.linkNotify (h : Live s) (hs : linkNotify s object event = some s') : Live s' := by
  unfold EventLoop.linkNotify at hs
  split at hs
  · split at hs
    case h_1 a hl =>
      obtain ⟨it, hit, ho, -⟩ := h.linked.link _ _ _ hl
      exact some.inj hs ▸ h.itemNotify hit ho
    all_goals exact some.inj hs ▸ h
  · cases hs

theorem Live.addItem (h : Live s) (htree : s.tree object = none) (ha : s.items a = none)
    (hd : event.noflags? = some d) (hlink : s.link object d = .null) :
    Live (addItem s object event a d) where
  linked := h.linked.addItem htree ha hd hlink
  currentItem := h.currentItem
  processed := by
    intro b hb
    obtain ⟨it, hit, ho⟩ := h.processed b hb
    refine ⟨it, ?_, ho⟩
    change update s.items a _ b = some it
    rw [update_of_ne, hit]
    rintro rfl
    cases ha.symm.trans hit
  later := by
    intro b it hb ho
    obtain ⟨-, hv⟩ | ⟨-, hb⟩ := Ledger.update_cases hb
    · rw [← some.inj hv] at ho
      exact absurd ho.symm Bool.false_ne_true
    · exact h.later b it hb ho

theorem Live.objectSubscribe {level : Bool} (h : Live s)
    (hs : objectSubscribe s object event a level = some s') : Live s' := by
  obtain ⟨d, htree, ha, hd, hlink, rfl⟩ := objectSubscribe_cases hs
  have hadd := h.addItem htree ha hd hlink
  split
  · exact hadd.itemNotify (update_self ..) rfl
  · exact hadd

theorem itemFree_of_some (hit : s.items a = some it) : itemFree s a =
    { s with items := update s.items a none, freed := it.serial :: s.freed } := by
  rw [itemFree, hit]

theorem itemFreeLater_of_some (hit : s.items a = some it) : itemFreeLater s a =
    { s with items := update s.items a (some { it with owner := false }) } := by
  rw [itemFreeLater, hit]

/-- Where the code that uses the loop runs, an item that is being processed is `current_item`. -/
theorem Live.unsubscribe (h : Live s) (huser : s.pc.user = true)
    (hs : unsubscribe s object = some s') : Live s' := by
  obtain ⟨a, htree, hcases⟩ := unsubscribe_cases hs
  obtain ⟨it, hit, ho, rfl⟩ := h.linked.tree object a htree
  rcases hcases with ⟨hnone, -⟩ | ⟨it', d, hit', -, hd, -, rfl⟩
  · cases hit.symm.trans hnone
  obtain rfl := some.inj (hit.symm.trans hit')
  have hledger := h.linked.ledger
  have hitem : s.pc.item? = s.currentItem := (Pc.item?_of_user huser).trans h.currentItem.symm
  split
  case isTrue hc =>
    rw [itemFreeLater_of_some (s := unlinkItem s it.object a d) hit]
    refine ⟨h.linked.unlinkItem hit ho hd (fun _ hv => some.inj hv ▸ rfl)
      (hledger.rewrite hit rfl), h.currentItem, fun b hb => ?_, fun b it' hb ho' => ?_⟩
    · obtain rfl := some.inj ((hitem.trans hc).symm.trans hb)
      refine ⟨_, update_self .., fun c hc' => ?_⟩
      exact absurd ((Pc.owner?_of_user huser).symm.trans hc') (by simp)
    · obtain ⟨rfl, -⟩ | ⟨-, hb⟩ := Ledger.update_cases hb
      · exact hitem.trans hc
      · exact h.later b it' hb ho'
  case isFalse hc =>
    rw [itemFree_of_some (s := unlinkItem s it.object a d) hit]
    refine ⟨h.linked.unlinkItem hit ho hd (fun _ hv => absurd hv (by simp))
      (hledger.release hit), h.currentItem, fun b hb => ?_, fun b it' hb ho' => ?_⟩
    · obtain ⟨it', hit', hbo⟩ := h.processed b hb
      refine ⟨it', ?_, hbo⟩
      change update s.items a none b = some it'
      rw [update_of_ne, hit']
      rintro rfl
      exact hc (hitem.symm.trans hb)
    · obtain ⟨-, hv⟩ | ⟨-, hb⟩ := Ledger.update_cases hb
      · cases hv
      · exact h.later b it' hb ho'

theorem Live.owner_of_item?_none (h : Live s) (hpc : s.pc.item? = none)
    (hit : s.items a = some it) : it.owner = true := by
  by_contra ho
  have hitem := h.later a it hit (Bool.eq_false_iff.mpr ho)
  cases hpc.symm.trans hitem

theorem Live.getWaitingItem (h : Live s) (hpc : s.pc = .getWaitingItem rest) :
    Live (getWaitingItem s rest) := by
  have hcurrent : s.currentItem = none := by rw [h.currentItem, hpc]; rfl
  unfold EventLoop.getWaitingItem
  split
  · exact h.move hpc (.of_eq rfl) rfl rfl rfl rfl
  case h_2 a waiting hcons =>
    have hnodup := hcons ▸ h.linked.nodup
    refine ⟨⟨h.linked.tree, h.linked.link, h.linked.owned, fun b hb => ?_,
      (nodup_cons.mp hnodup).2, h.linked.ledger, h.linked.fault⟩, hcurrent, fun b hb => ?_,
      fun b it hit ho => ?_⟩
    · exact h.linked.waiting b (hcons ▸ mem_cons_of_mem a hb)
    · obtain rfl := some.inj hb
      obtain ⟨it, hit, ho⟩ := h.linked.waiting a (hcons ▸ mem_cons_self)
      exact ⟨it, hit, fun c hc => ho.trans (some.inj hc)⟩
    · exact absurd ((h.owner_of_item?_none (by rw [hpc]; rfl) hit).symm.trans ho) (by decide)

theorem Linked.itemFree (h : Linked s) (hit : s.items a = some it) (ho : it.owner = false) :
    Linked (itemFree s a) := by
  rw [itemFree_of_some hit]
  -- whatever is linked has its owner, so it is another item
  have hkeep : ∀ b it', s.items b = some it' → it'.owner = true →
      update s.items a none b = some it' := by
    intro b it' hb ho'
    rw [update_of_ne, hb]
    rintro rfl
    obtain rfl := some.inj (hit.symm.trans hb)
    cases ho.symm.trans ho'
  refine ⟨fun o b hb => ?_, fun o d b hb => ?_, fun b it' hb ho' => ?_, fun b hb => ?_, h.nodup,
    h.ledger.release hit, h.fault⟩
  · obtain ⟨it', hit', ho', hobj⟩ := h.tree o b hb
    exact ⟨it', hkeep b it' hit' ho', ho', hobj⟩
  · obtain ⟨it', hit', ho', hrest⟩ := h.link o d b hb
    exact ⟨it', hkeep b it' hit' ho', ho', hrest⟩
  · obtain ⟨-, hv⟩ | ⟨-, hb⟩ := Ledger.update_cases hb
    · cases hv
    · exact h.owned b it' hb ho'
  · obtain ⟨it', hit', ho'⟩ := h.waiting b hb
    exact ⟨it', hkeep b it' hit' ho', ho'⟩

theorem Live.finish {status : ProcessStatus} (h : Live s) (hpc : s.pc = .finish a rest status) :
    Live (finish s a rest status) := by
  obtain ⟨it, hit, ho⟩ := h.processed a (by rw [hpc]; rfl)
  have hcurrent : s.currentItem = none := by rw [h.currentItem, hpc]; rfl
  have hlater : ∀ b it', s.items b = some it' → it'.owner = false → b = a := by
    intro b it' hb ho'
    have hitem := h.later b it' hb ho'
    rw [hpc] at hitem
    exact (some.inj hitem).symm
  -- an item that still has its owner is like any other now
  have howned : it.owner = true → ∀ b it', s.items b = some it' → it'.owner = true := by
    intro ho b it' hb
    by_contra ho'
    obtain rfl := hlater b it' hb (Bool.eq_false_iff.mpr ho')
    exact ho' (some.inj (hit.symm.trans hb) ▸ ho)
  cases status with
  | complete =>
    have ho := ho true (by rw [hpc]; rfl)
    exact ⟨h.linked.of_same (.of_eq rfl), hcurrent,
      fun _ hb => absurd hb (by simp [EventLoop.finish, Pc.item?]),
      fun b it' hb ho' => absurd ((howned ho b it' hb).symm.trans ho') (by decide)⟩
  | incomplete =>
    have ho := ho true (by rw [hpc]; rfl)
    refine ⟨?_, ?_, fun _ hb => absurd hb (by simp [EventLoop.finish, Pc.item?]), ?_⟩ <;>
      rw [EventLoop.finish, itemEnqueue_of_owned hit ho]
    · exact (h.linked.pushWaiting hit ho).of_same (.of_eq rfl)
    · exact hcurrent
    · exact fun b it' hb ho' => absurd ((howned ho b it' hb).symm.trans ho') (by decide)
  | freeLater =>
    have ho := ho false (by rw [hpc]; rfl)
    refine ⟨(h.linked.itemFree hit ho).of_same (.of_eq rfl), ?_,
      fun _ hb => absurd hb (by simp [EventLoop.finish, Pc.item?]), ?_⟩ <;>
      rw [EventLoop.finish, itemFree_of_some hit]
    · exact hcurrent
    · intro b it' hb ho'
      obtain ⟨-, hv⟩ | ⟨hne, hb⟩ := Ledger.update_cases hb
      · cases hv
      · exact absurd (hlater b it' hb ho') hne

/-- Whether the event of an item with the once flag is about to be processed. -/
def processesOnce (s : State) : Bool :=
  match s.pc with
  | .processEvent a _ => (s.items a).any fun it => it.event.once
  | _ => false

def OnceNotProcessed (s : State) : Label → Prop
  | .loop => processesOnce s = false
  | .call _ | .outside _ | .run | .wake | .timeout _ | .level _ | .ret => True

instance (s : State) (l : Label) : Decidable (OnceNotProcessed s l) := by
  cases l <;> unfold OnceNotProcessed <;> infer_instance

theorem Live.of_deref {k : Item → Option State} (h : Live s) (ha : s.pc.item? = some a)
    (hs : deref s a k = some s') : ∃ it, s.items a = some it ∧
      (∀ b, s.pc.owner? = some b → it.owner = b) ∧ k it = some s' := by
  obtain ⟨it, hit, ho⟩ := h.processed a ha
  rw [deref, hit] at hs
  exact ⟨it, hit, ho, hs⟩

theorem Live.loopStep (h : Live s) (hok : OnceNotProcessed s .loop) (hs : loopStep s = some s') :
    Live s' := by
  unfold EventLoop.loopStep at hs
  split at hs
  case h_1 rest hpc => exact some.inj hs ▸ h.getWaitingItem hpc
  case h_2 a rest hpc =>
    obtain ⟨it, hit, ho, hk⟩ := h.of_deref (by rw [hpc]; rfl) hs
    have honce : it.event.once = false := by
      rw [OnceNotProcessed, processesOnce, hpc] at hok
      change (s.items a).any _ = false at hok
      rw [hit] at hok
      exact hok
    rw [if_neg (by simp [honce])] at hk
    obtain rfl := some.inj hk
    refine h.of_pc (.of_eq rfl) ?_ (by rw [hpc]; rfl)
      (fun _ _ b _ _ hb hb' => hb b (by rw [hpc]; exact hb'))
    exact h.currentItem.trans (by rw [hpc]; rfl)
  case h_3 a rest hpc =>
    obtain ⟨it, hit, ho, hk⟩ := h.of_deref (by rw [hpc]; rfl) hs
    obtain rfl := some.inj hk
    refine h.of_pc (.of_eq rfl) ?_ ?_ ?_
    · change some a = _
      split <;> rfl
    · rw [hpc]
      change Pc.item? (if it.event.edge = true then _ else _) = _
      split <;> rfl
    · intro _ _ b _ _ _ hb
      change Pc.owner? (if it.event.edge = true then _ else _) = _ at hb
      split at hb <;> exact absurd hb (by simp [Pc.owner?])
  case h_4 a rest status hpc =>
    obtain ⟨it, hit, ho, hk⟩ := h.of_deref (by rw [hpc]; rfl) hs
    obtain rfl := some.inj hk
    refine h.of_pc (.of_eq rfl) rfl (by rw [hpc]; rfl) ?_
    intro a' it' b ha hit' _ hb
    rw [hpc] at ha
    obtain rfl := some.inj ha
    obtain rfl := some.inj (hit.symm.trans hit')
    change Pc.owner? (.finish a rest (if it.owner = true then status else .freeLater)) = _ at hb
    split at hb
    case isTrue howner =>
      rw [howner]
      cases status with
      | freeLater =>
        have hfalse := ho false (by rw [hpc]; rfl)
        cases hfalse.symm.trans howner
      | _ => exact some.inj hb
    case isFalse howner =>
      rw [Bool.eq_false_iff.mpr howner]
      exact some.inj hb
  case h_5 a rest status hpc => exact some.inj hs ▸ h.finish hpc
  case h_6 rest hpc | h_9 rest hpc => exact some.inj hs ▸ h.move hpc (.of_eq rfl) rfl rfl rfl rfl
  case h_7 rest hpc =>
    obtain rfl := some.inj hs
    unfold syncFlags
    split <;> exact h.move hpc (.of_eq rfl) rfl rfl rfl rfl
  case h_8 rest hpc =>
    obtain rfl := some.inj hs
    unfold processTimerQueue
    split
    · exact h.move hpc (.of_eq rfl) rfl rfl rfl rfl
    · exact h.of_same (.of_eq rfl) rfl rfl
  case h_10 hpc =>
    obtain rfl := some.inj hs
    unfold processPendingCallbacks
    split <;> exact h.move hpc (.of_eq rfl) rfl rfl rfl rfl
  all_goals cases hs

theorem Live.levelStep {level : Bool} (h : Live s) (hs : levelStep s level = some s') :
    Live s' := by
  unfold EventLoop.levelStep at hs
  split at hs
  case h_1 a rest hpc | h_2 a rest hpc =>
    obtain ⟨it, hit, -⟩ := h.processed a (by rw [hpc]; rfl)
    rw [deref, hit] at hs
    obtain rfl := some.inj hs
    cases level <;> exact h.move hpc (.of_eq rfl) rfl rfl rfl rfl
  case h_3 => cases hs

theorem Live.callbackReturn {frame : Frame} (h : Live s) (hpc : s.pc = .callback frame) :
    Live (callbackReturn s frame) := by
  cases frame <;> exact h.move hpc (.of_eq rfl) rfl rfl rfl rfl

theorem Live.call {c : Call} (h : Live s) (huser : s.pc.user = true) (hs : call s c = some s') :
    Live s' := by
  cases c with
  | objectSubscribe object event a level => exact h.objectSubscribe hs
  | unsubscribe object => exact h.unsubscribe huser hs
  | pendCallback callback =>
    exact some.inj hs ▸ h.of_same (.of_eq rfl) rfl rfl
  | timerEnqueueRequest timer request =>
    rw [EventLoop.call, timerEnqueueRequest] at hs
    split at hs
    · cases hs
    · exact some.inj hs ▸ h.of_same (.of_eq rfl) rfl rfl
  | subscribeThreadFlags =>
    rw [EventLoop.call, EventLoop.subscribeThreadFlags] at hs
    split at hs
    · cases hs
    · exact some.inj hs ▸ h.of_same (.of_eq rfl) rfl rfl
  | unsubscribeThreadFlags =>
    rw [EventLoop.call, EventLoop.unsubscribeThreadFlags] at hs
    split at hs
    · exact some.inj hs ▸ h.of_same (.of_eq rfl) rfl rfl
    · cases hs

theorem Linked.otherLoop {subscribe : Bool} (h : Linked s)
    (hs : otherLoop s object d subscribe = some s') : Linked s' := by
  obtain ⟨hl, rfl⟩ := otherLoop_cases hs
  refine ⟨h.tree, fun o d' a ha => ?_, fun a it hit ho => ?_, h.waiting, h.nodup, h.ledger, h.fault⟩
  · obtain ⟨-, -, hv⟩ | ⟨-, hold⟩ := link_update_cases ha
    · cases subscribe <;> cases hv
    · exact h.link o d' a hold
  · obtain ⟨ht, d', hd', hl'⟩ := h.owned a it hit ho
    refine ⟨ht, d', hd', (link_update_of_ne ?_).trans hl'⟩
    by_contra hne
    rw [not_or, not_not, not_not] at hne
    rw [hne.1, hne.2, hl] at hl'
    cases subscribe <;> cases hl'

theorem Live.outside {o : Outside} (h : Live s) (hs : outside s o = some s') : Live s' := by
  cases o with
  | linkNotify object event => exact h.linkNotify hs
  | threadFlagCallback =>
    exact some.inj hs ▸ h.of_same (.of_eq rfl) rfl rfl
  | stop => exact some.inj hs ▸ h.of_same (.of_eq rfl) rfl rfl
  | otherLoop object direction subscribe =>
    have hlinked := h.linked.otherLoop hs
    obtain ⟨-, rfl⟩ := otherLoop_cases hs
    exact ⟨hlinked, h.currentItem, h.processed, h.later⟩

theorem Live.wake (h : Live s) (hpc : s.pc = .waiting) (hs : wake s = some s') : Live s' := by
  unfold EventLoop.wake at hs
  split at hs
  · exact some.inj hs ▸ h.move hpc (.of_eq rfl) rfl rfl rfl rfl
  split at hs
  · exact some.inj hs ▸ h.move hpc (.of_eq rfl) rfl rfl rfl rfl
  split at hs
  · exact some.inj hs ▸ h.move hpc (.of_eq rfl) rfl rfl rfl rfl
  split at hs
  · exact some.inj hs ▸ h.move hpc (.of_eq rfl) rfl rfl rfl rfl
  split at hs
  · obtain rfl := some.inj hs
    by_cases hflags : s.areThreadFlagsSubscribed = true
    · rw [if_pos hflags]
      exact h.move hpc (.of_eq rfl) rfl rfl rfl rfl
    · rw [if_neg hflags]
      exact h.move hpc (.of_eq rfl) rfl rfl rfl rfl
  · cases hs

theorem Live.step {l : Label} (h : Live s) (hok : OnceNotProcessed s l)
    (hs : machine.step s l = some s') : Live s' := by
  change EventLoop.step s l = some s' at hs
  rw [EventLoop.step, h.linked.fault] at hs
  change transition s l = some s' at hs
  cases l with
  | call c =>
    rw [transition] at hs
    split at hs
    case isTrue huser => exact h.call huser hs
    case isFalse => cases hs
  | outside o => exact h.outside hs
  | run =>
    rw [transition] at hs
    split at hs
    case h_1 hpc =>
      exact some.inj hs ▸ h.move hpc (.of_eq rfl) rfl rfl rfl rfl
    case h_2 => cases hs
  | wake =>
    rw [transition] at hs
    split at hs
    case h_1 hpc => exact h.wake hpc hs
    case h_2 => cases hs
  | timeout callback =>
    rw [transition] at hs
    split at hs
    case h_1 hpc =>
      unfold timeout at hs
      split at hs
      · cases hs
      obtain rfl := some.inj hs
      cases callback <;> exact h.move hpc (.of_eq rfl) rfl rfl rfl rfl
    case h_2 => cases hs
  | loop => exact h.loopStep hok hs
  | level level => exact h.levelStep hs
  | ret =>
    rw [transition] at hs
    split at hs
    case h_1 frame hpc => exact some.inj hs ▸ h.callbackReturn hpc
    case h_2 => cases hs

/-- No item is used after it was freed, or freed twice. The tree, the links and the waiting list
refer to items of the loop only. Every allocation is freed once or still there, and no unsubscribed
item is left over once it is processed. -/
structure ItemsLive (s : State) : Prop where
  fault : s.fault = false
  processed : ∀ a, s.pc.item? = some a → s.items a ≠ none
  tree : ∀ object a, s.tree object = some a →
    ∃ it, s.items a = some it ∧ it.owner = true ∧ it.object = object
  link : ∀ object d a, s.link object d = .item a →
    ∃ it, s.items a = some it ∧ it.owner = true ∧ it.object = object ∧ it.event.noflags? = some d
  waiting : ∀ a, a ∈ s.waitingList → ∃ it, s.items a = some it ∧ it.owner = true
  freedOnce : ∀ n, n < s.allocated → s.freed.count n = 1 ∨
    s.freed.count n = 0 ∧ ∃ a it, s.items a = some it ∧ it.serial = n
  notFreed : ∀ a it, s.items a = some it → it.serial ∉ s.freed
  subscribed : ∀ a it, s.items a = some it → s.pc.item? ≠ some a → s.tree it.object = some a

theorem Live.itemsLive (h : Live s) : ItemsLive s where
  fault := h.linked.fault
  processed := by
    intro a ha hnone
    obtain ⟨it, hit, -⟩ := h.processed a ha
    cases hnone.symm.trans hit
  tree := h.linked.tree
  link := h.linked.link
  waiting := h.linked.waiting
  freedOnce := fun _ hn => h.linked.ledger.count_freed hn
  notFreed := h.linked.ledger.notFreed
  subscribed := by
    intro a it hit hpc
    by_cases ho : it.owner = true
    · exact (h.linked.owned a it hit ho).1
    · exact absurd (h.later a it hit (Bool.eq_false_iff.mpr ho)) hpc

/-- An item with the once flag is freed before the loop sets `current_item` to it. -/
theorem Live.once_freed (h : Live s) {l : Label} (hok : ¬ OnceNotProcessed s l)
    (hs : machine.step s l = some s') : ∃ a, s'.pc.item? = some a ∧ s'.items a = none := by
  change EventLoop.step s l = some s' at hs
  rw [EventLoop.step, h.linked.fault] at hs
  change transition s l = some s' at hs
  cases l with
  | loop =>
    have honce : processesOnce s = true := Bool.not_eq_false _ ▸ hok
    unfold processesOnce at honce
    change EventLoop.loopStep s = some s' at hs
    cases hpc : s.pc with
    | processEvent a rest =>
      rw [hpc] at honce
      obtain ⟨it, hit, ho⟩ := h.processed a (by rw [hpc]; rfl)
      have ho := ho true (by rw [hpc]; rfl)
      have htree := (h.linked.owned a it hit ho).1
      have hcurrent : s.currentItem = none := by rw [h.currentItem, hpc]; rfl
      rw [EventLoop.loopStep, hpc] at hs
      change processEvent s a rest = some s' at hs
      change (s.items a).any _ = true at honce
      rw [hit] at honce
      change it.event.once = true at honce
      rw [processEvent, deref, hit] at hs
      change (if it.event.once = true then _ else _) = some s' at hs
      rw [if_pos honce] at hs
      obtain ⟨u, hu, rfl⟩ := map_eq_some_iff.mp hs
      obtain ⟨b, hb, hcases⟩ := unsubscribe_cases hu
      obtain rfl := some.inj (htree.symm.trans hb)
      rcases hcases with ⟨hnone, -⟩ | ⟨it', d, hit', -, -, -, rfl⟩
      · cases hit.symm.trans hnone
      obtain rfl := some.inj (hit.symm.trans hit')
      rw [if_neg (by simp [hcurrent]), itemFree_of_some (s := unlinkItem s it.object a d) hit]
      exact ⟨a, rfl, update_self ..⟩
    | _ => exact absurd (hpc ▸ honce) (by simp)
  | _ => exact absurd trivial hok

/-- The items are live all along a run exactly when no event of an item with the once flag is
processed. -/
theorem items_live_iff {ls : List Label} (h : machine.run alloc ls = some s) :
    (∀ pre u, pre <+: ls → machine.run alloc pre = some u → ItemsLive u) ↔
      machine.Meets OnceNotProcessed alloc ls :=
  (machine.meets_iff_always (fun _ _ _ hI hok hs => hI.step hok hs) (fun _ hI => hI.itemsLive)
    (fun _ _ _ hI hok hs hlive =>
      let ⟨a, ha, hnone⟩ := hI.once_freed hok hs
      hlive.processed a ha hnone) live_alloc h).symm

/-- A level-triggered item is subscribed, notified, unsubscribed and subscribed again from its
own callback, and then unsubscribed for good. -/
def resubscribed : List Label :=
  [.call (.objectSubscribe 5 ⟨true, false, false, false⟩ 1 false), .run,
    .outside (.linkNotify 5 ⟨true, false, false, false⟩), .wake, .loop, .loop, .loop, .level true,
    .call (.unsubscribe 5), .call (.objectSubscribe 5 ⟨false, true, true, false⟩ 2 false), .ret,
    .level false, .loop, .loop, .loop, .loop]

theorem items_live_iff_resubscribed : ∃ s, machine.run alloc resubscribed = some s ∧
    s.pc = .waiting ∧ s.freed = [0] ∧
    ((∀ pre u, pre <+: resubscribed → machine.run alloc pre = some u → ItemsLive u) ↔
      machine.Meets OnceNotProcessed alloc resubscribed) :=
  ⟨_, rfl, rfl, rfl, items_live_iff rfl⟩

/-- The example application for mutexes: an event with the edge and once flags. -/
def onceProcessed : List Label :=
  [.call (.objectSubscribe 5 ⟨true, false, true, true⟩ 1 false), .run,
    .outside (.linkNotify 5 ⟨true, false, false, false⟩), .wake, .loop, .loop, .loop]

theorem once_used_after_free : ¬ ∀ ls s, machine.run alloc ls = some s → ItemsLive s := by
  intro hall
  have hlive := hall onceProcessed _ rfl
  exact Bool.false_ne_true hlive.fault.symm

end NikitaFirmware.EventLoop
